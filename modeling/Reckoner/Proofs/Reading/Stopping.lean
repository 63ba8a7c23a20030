import Reckoner.Proofs.Numeral.Notation
import Reckoner.Proofs.Reading.Earliest

/-! Where readings stop. An expression is read up to the end of the input or to a closing
parenthesis, and so is every expression inside it. What a failed reading reports is told by one
token: everything before that token was read, and all numbers before it fit the limit. A number
is refused for its length only, and an opening parenthesis is reported only when the expression
behind it reaches to the end of the input. -/
namespace Reckoner

/-- The error names the token with which the tokens begin: it is unexpected there, a number
that is refused, a parenthesis not closed behind the expression in it, or a level too deep. -/
inductive Blames (rules : ReadRules) : ParseError → List Token → Prop where
  | unexpected (ts : List Token) : Blames rules (rules.peek ts).unexpected ts
  | refused {t : Token} {ts : List Token} {cause : NumberError} :
      t.kind = .number → Numeral.ofDecimal t.text rules.limit = .error cause →
      Blames rules (.invalidLiteral t.start cause) (t :: ts)
  | unclosed {t : Token} {ts rest : List Token} {depth : Nat} {inner : Expr} :
      t.kind = .opening → rules.read .expression depth ts = ⟨.ok inner, rest⟩ →
      (rules.peek rest).kind = .finish → Blames rules (.unmatchedParen t.start) (t :: ts)
  | deep (ts : List Token) : Blames rules (rules.tooDeep (rules.peek ts).start) ts

theorem ReadRules.kind_of_expression {rules : ReadRules} {depth : Nat} {ts rest : List Token} {e : Expr}
    (h : rules.read .expression depth ts = ⟨.ok e, rest⟩) :
    (rules.peek rest).kind = .finish ∨ (rules.peek rest).kind = .closing := by
  obtain ⟨_, derived⟩ := rules.derives_of_read .expression depth ts h
  cases rest with
  | nil => exact .inl rules.finish_kind
  | cons t rest => exact (nextOperator_eq_none derived.endsBefore).symm

theorem Stream.kind_of_expression {s after : Stream} {e : Expr} (h : s.expression = (.ok e, after)) :
    after.peek.kind = .finish ∨ after.peek.kind = .closing := by
  obtain ⟨outcome, rfl⟩ := Prod.mk.inj h
  have read : s.rules.read .expression s.depth s.pending = ⟨.ok e, _⟩ := congrArg (Reading.mk · _) outcome
  exact ReadRules.kind_of_expression read

theorem Token.fits_of_kind {t : Token} {limit : DigitLimit} (kind : t.kind ≠ .number) : t.Fits limit :=
  fun number => absurd number kind

def BlamesIn (rules : ReadRules) (e : ParseError) (ts : List Token) : Prop :=
  ∃ used rest, ts = used ++ rest ∧ (∀ u ∈ used, u.Fits rules.limit) ∧ Blames rules e rest

namespace BlamesIn

variable {rules : ReadRules} {e : ParseError} {t : Token} {ts used : List Token}

theorem here (h : Blames rules e ts) : BlamesIn rules e ts :=
  ⟨[], ts, rfl, fun _ member => absurd member List.not_mem_nil, h⟩

theorem behind (fits : ∀ u ∈ used, u.Fits rules.limit) (h : BlamesIn rules e ts) :
    BlamesIn rules e (used ++ ts) := by
  obtain ⟨before, rest, rfl, fits', blames⟩ := h
  exact ⟨used ++ before, rest, (List.append_assoc ..).symm, Spells.fits_append fits fits', blames⟩

theorem cons (kind : t.kind ≠ .number) (h : BlamesIn rules e ts) : BlamesIn rules e (t :: ts) := by
  have single : ∀ u ∈ [t], u.Fits rules.limit := List.forall_mem_singleton.mpr (Token.fits_of_kind kind)
  exact h.behind single

theorem after_read {goal : Goal} {depth : Nat} {rest : List Token} {before : Expr}
    (read : rules.read goal depth ts = ⟨.ok before, rest⟩) (h : BlamesIn rules e rest) :
    BlamesIn rules e ts := by
  obtain ⟨used, rfl, spells⟩ := spells_of_read read
  exact h.behind spells.fits

end BlamesIn

theorem Fails.blames {rules : ReadRules} {goal : Goal} {depth : Nat} {ts stop : List Token}
    {e : ParseError} (h : Fails rules goal depth ts e stop) : BlamesIn rules e ts := by
  induction h with
  | noOperand => exact .here (.unexpected _)
  | literal kind refused => exact .here (.refused kind refused)
  | group opens _ ih => exact ih.cons (by rw [opens]; decide)
  | unclosed opens inside other =>
    have finish := (ReadRules.kind_of_expression inside).resolve_right other
    exact .here (.unclosed opens inside finish)
  | root kind _ _ ih => exact ih.cons (by rw [kind]; decide)
  | @deepRoot depth t ts => exact .here (.deep (t :: ts))
  | deepExpression => exact .here (.deep _)
  | first _ _ ih => exact ih
  | later _ operand _ ih => exact ih.after_read operand
  | noOperator refused =>
    obtain ⟨t, us, rfl, _, rfl⟩ := nextOperator_eq_error refused
    exact .here (.unexpected (t :: us))
  | operand kind _ _ ih => exact ih.cons (by rw [kind]; exact TokenKind.noConfusion)
  | extend kind _ operand _ _ ih =>
    exact (ih.after_read operand).cons (by rw [kind]; exact TokenKind.noConfusion)
  | deepClimb kind _ operand =>
    have blamed : BlamesIn _ _ _ := (BlamesIn.here (.deep _)).after_read operand
    exact blamed.cons (by rw [kind]; exact TokenKind.noConfusion)
  | climb kind _ operand _ _ _ ih =>
    exact (ih.after_read operand).cons (by rw [kind]; exact TokenKind.noConfusion)
  | behind kind _ operand _ _ climb _ ih =>
    exact ((ih.after_read climb).after_read operand).cons (by rw [kind]; exact TokenKind.noConfusion)

namespace Expr

variable {source : String} {settings : Settings} {body : List Token} {stop : Nat}

theorem parseOr_eq (leftover : Token → Except ParseError Expr) (source : String) (settings : Settings) :
    parseOr leftover source settings = parse source settings := by
  unfold parse parseOr
  cases Token.tokenize source with
  | error e => rfl
  | ok tokens =>
    dsimp only
    cases read : (Stream.start source tokens settings).expression with
    | mk outcome after =>
      cases outcome with
      | error e => rfl
      | ok e =>
        dsimp only
        rcases Stream.kind_of_expression read with finish | closing
        · rw [finish]
        · rw [closing]

theorem blames_of_parse {e : ParseError} (failed : parse source settings = .error e)
    (nonempty : e ≠ .emptyExpression) (known : ∀ text offset, e ≠ .unknownToken text offset) :
    ∃ body stop, Token.tokenize source = .ok (body ++ [Token.finishAt stop]) ∧
      (∀ t ∈ body, t.Scanned) ∧
      (BlamesIn (settings.rules stop) e body ∨
        ∃ before t behind, body = before ++ t :: behind ∧ t.kind = .closing ∧
          e = .unmatchedParen t.start) := by
  have nonblank := nonblank_of_parse failed nonempty
  cases scanned : Token.tokenize source with
  | error x =>
    rw [parse, parseOr, nonblank, scanned] at failed
    obtain ⟨text, offset, rfl⟩ := Token.scan_eq_error scanned
    exact absurd (Except.error.inj failed).symm (known text offset)
  | ok tokens =>
    obtain ⟨body, stop, rfl, each⟩ := Token.tokenize_split scanned
    refine ⟨body, stop, rfl, each, ?_⟩
    rcases parse_eq_error nonblank scanned each failed with
      ⟨_, fails⟩ | ⟨before, t, behind, parts, _, closing, same⟩
    · exact .inl fails.blames
    · exact .inr ⟨before, t, behind, parts, closing, same⟩

theorem reaches_finish {rules : ReadRules} {depth : Nat} {ts rest : List Token} {e : Expr}
    (unfinished : ∀ t ∈ ts, t.kind ≠ .finish) (inside : rules.read .expression depth ts = ⟨.ok e, rest⟩)
    (finish : (rules.peek rest).kind = .finish) : rest = [] := by
  cases rest with
  | nil => rfl
  | cons t rest =>
    have member : t ∈ ts := (ReadRules.suffix_of_read inside).subset List.mem_cons_self
    exact absurd finish (unfinished t member)

theorem unmatched_of_parse {offset : Nat} (failed : parse source settings = .error (.unmatchedParen offset)) :
    ∃ before t behind, Token.tokenize source = .ok (before ++ t :: behind) ∧ t.start = offset ∧
      (t.kind = .closing ∨ t.kind = .opening ∧ ∃ depth e after,
        ({ Stream.start source behind settings with depth } : Stream).expression = (.ok e, after) ∧
          after.pending = []) := by
  obtain ⟨body, stop, scanned, each, blamed⟩ :=
    blames_of_parse failed ParseError.noConfusion (fun _ _ => ParseError.noConfusion)
  rcases blamed with ⟨before, ts, rfl, _, blames⟩ | ⟨before, t, behind, rfl, closing, same⟩
  · cases blames with
    | @unclosed t ts rest depth inner opens inside finish =>
      have inBody : ∀ u ∈ ts, u.kind ≠ .finish := fun u member => (each u (by simp [member])).kind_ne
      obtain rfl := reaches_finish inBody inside finish
      refine ⟨before, t, ts ++ [Token.finishAt stop], by simpa using scanned, rfl, .inr ⟨opens, ?_⟩⟩
      refine ⟨depth, inner, ⟨source, settings.rules stop, depth, []⟩, ?_, rfl⟩
      rw [Stream.start_split]
      simp only [Stream.expression, Stream.read, inside]
  · obtain rfl := ParseError.unmatchedParen.inj same
    exact ⟨before, t, behind ++ [Token.finishAt stop], by simpa using scanned, rfl, .inl closing⟩

theorem refused_of_parse {offset : Nat} {cause : NumberError}
    (failed : parse source settings = .error (.invalidLiteral offset cause)) :
    ∃ before t behind, Token.tokenize source = .ok (before ++ t :: behind) ∧ t.start = offset ∧
      t.kind = .number ∧ settings.digitLimit.count < (Text.unpadded t.text).length ∧
      cause = .tooManyDigits (Text.unpadded t.text).length settings.digitLimit.count ∧
      ∀ u ∈ before, u.kind = .number → (Text.unpadded u.text).length ≤ settings.digitLimit.count := by
  obtain ⟨body, stop, scanned, each, blamed⟩ :=
    blames_of_parse failed ParseError.noConfusion (fun _ _ => ParseError.noConfusion)
  rcases blamed with ⟨before, ts, rfl, fits, blames⟩ | ⟨_, _, _, _, _, other⟩
  · cases blames with
    | @refused t ts cause number refused =>
      obtain ⟨nonempty, digits⟩ := (each t (by simp)).digits number
      rw [Numeral.ofDecimal_eq nonempty (List.all_eq_true.mp digits)] at refused
      split at refused
      · cases refused
      · next beyond =>
        cases refused
        refine ⟨before, t, ts ++ [Token.finishAt stop], by simpa using scanned, rfl, number,
          Nat.lt_of_not_le beyond, rfl, ?_⟩
        intro u member kind
        have digits := ((each u (by simp [member])).digits kind).2
        rw [← Numeral.digitCount_spelled (List.all_eq_true.mp digits)]
        exact fits u member kind
  · cases other

/-- An expression is read up to the end of the input or a closing parenthesis, whatever the
tokens, so a whole source never fails on another token left over. An opening parenthesis is
reported only when the expression behind it, read at some depth, leaves no token. A number is
reported only for having too many digits, leading zeros apart, and it is the first such one. -/
theorem parse_stops :
    (∀ (s after : Stream) (e : Expr), s.expression = (.ok e, after) →
      after.peek.kind = .finish ∨ after.peek.kind = .closing) ∧
    ∀ (source : String) (settings : Settings),
      (∀ leftover : Token → Except ParseError Expr,
        parseOr leftover source settings = parse source settings) ∧
      (∀ offset, parse source settings = .error (.unmatchedParen offset) →
        ∃ before t behind, Token.tokenize source = .ok (before ++ t :: behind) ∧ t.start = offset ∧
          (t.kind = .closing ∨ t.kind = .opening ∧ ∃ depth e after,
            ({ Stream.start source behind settings with depth } : Stream).expression = (.ok e, after) ∧
              after.pending = [])) ∧
      ∀ offset cause, parse source settings = .error (.invalidLiteral offset cause) →
        ∃ before t behind, Token.tokenize source = .ok (before ++ t :: behind) ∧ t.start = offset ∧
          t.kind = .number ∧ settings.digitLimit.count < (Text.unpadded t.text).length ∧
          cause = .tooManyDigits (Text.unpadded t.text).length settings.digitLimit.count ∧
          ∀ u ∈ before, u.kind = .number → (Text.unpadded u.text).length ≤ settings.digitLimit.count := by
  refine ⟨fun s after e read => Stream.kind_of_expression read, fun source settings => ⟨?_, ?_, ?_⟩⟩
  · exact fun leftover => parseOr_eq leftover source settings
  · exact fun offset failed => unmatched_of_parse failed
  · exact fun offset cause failed => refused_of_parse failed

theorem parse_stops_within_four_digits :
    let settings : Settings := { digitLimit := ⟨4, by decide⟩ }
    let s := Stream.start "7)x" [⟨.number, 0, 1, "7"⟩, ⟨.closing, 1, 2, ")"⟩, ⟨.finish, 2, 2, ""⟩,
      ⟨.name, 2, 3, "x"⟩] settings
    let opened : List Token := [⟨.number, 0, 1, "1"⟩, ⟨.operator .add, 1, 2, "+"⟩, ⟨.opening, 2, 3, "("⟩,
      ⟨.number, 3, 4, "2"⟩, .finishAt 4]
    (∃ e after, s.expression = (.ok e, after) ∧
      (after.peek.kind = .finish ∨ after.peek.kind = .closing)) ∧
    parse "1+(2" settings = .error (.unmatchedParen 2) ∧ Token.tokenize "1+(2" = .ok opened ∧
    (∃ t ∈ opened, t.start = 2 ∧ t.kind = .opening) ∧
    parse "007+0012345*99999" settings = .error (.invalidLiteral 4 (.tooManyDigits 5 4)) ∧
    ∃ before t behind, Token.tokenize "007+0012345*99999" = .ok (before ++ t :: behind) ∧ t.start = 4 ∧
      4 < (Text.unpadded t.text).length := by
  intro settings s opened
  obtain ⟨stops, whole⟩ := parse_stops
  have read : s.expression = (.ok (.literal ⟨[7]⟩), s.expression.2) :=
    Prod.ext (by decide +kernel) rfl
  have unmatched : parse "1+(2" settings = .error (.unmatchedParen 2) := by decide +kernel
  have scanned : Token.tokenize "1+(2" = .ok opened := by decide +kernel
  have unclosed : ∀ t ∈ opened, t.kind ≠ .closing := by decide
  have refused : parse "007+0012345*99999" settings =
      .error (.invalidLiteral 4 (.tooManyDigits 5 4)) := by decide +kernel
  refine ⟨⟨_, _, read, stops _ _ _ read⟩, unmatched, scanned, ?_, refused, ?_⟩
  · obtain ⟨before, t, behind, same, start, sort⟩ := (whole _ settings).2.1 2 unmatched
    rw [scanned] at same
    have member : t ∈ opened := by rw [Except.ok.inj same]; simp
    rcases sort with closing | ⟨opening, _⟩
    · exact absurd closing (unclosed t member)
    · exact ⟨t, member, start, opening⟩
  · obtain ⟨before, t, behind, same, start, _, long, _⟩ := (whole _ settings).2.2 4 _ refused
    exact ⟨before, t, behind, same, start, long⟩

end Expr
end Reckoner
