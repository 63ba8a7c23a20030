import Reckoner.Proofs.Reading.Unclosed
import Reckoner.Proofs.Token.Segmentation

namespace Reckoner
namespace Token

/-- The tokens before the index begin a sentence, and those up to it do not. -/
def FirstBad (tokens : List Token) (i : Nat) : Prop :=
  Begins ((tokens.take i).map kind) ∧ ¬ Begins ((tokens.take (i + 1)).map kind)

variable {source : String} {body : List Token} {stop : Nat}

theorem firstBad_of_walk {progress : Progress} {used rest : List Token} {t : Token}
    (begins : Begins (used.map kind)) (reached : (Progress.awaiting 0).walk (used.map kind) = some progress)
    (stuck : progress.step t.kind = none) :
    (used ++ t :: rest)[used.length]? = some t ∧ FirstBad (used ++ t :: rest) used.length := by
  have ends := not_begins_of_walk reached stuck
  refine ⟨by simp, ?_, ?_⟩
  · simpa using begins
  · simpa [List.take_length_add_append] using ends

theorem grows_closing (kind : TokenKind) : kind.grows ')' = false := by
  cases kind with
  | operator op => cases op <;> rfl
  | _ => rfl

theorem exists_closings (offset n : Nat) :
    ∃ closers, Cut offset (List.replicate n ')') closers ∧ closers.length = n ∧
      ∀ c ∈ closers, c.kind = .closing := by
  induction n generalizing offset with
  | zero => exact ⟨[], .done offset, rfl, fun _ member => absurd member List.not_mem_nil⟩
  | succ n ih =>
    obtain ⟨closers, cut, size, closing⟩ := ih (offset + Text.byteLength [')'])
    refine ⟨spanning .closing offset [')'] :: closers, ?_, congrArg (· + 1) size, ?_⟩
    · have first : TokenKind.closing.Matches [')'] := rfl
      exact .token first (fun _ _ => rfl) cut
    · exact List.forall_mem_cons.mpr ⟨rfl, closing⟩

theorem tokenize_closings (scanned : tokenize source = .ok (body ++ [finishAt stop])) (n : Nat) :
    ∃ closers next, tokenize (source ++ String.ofList (List.replicate n ')')) =
        .ok (body ++ closers ++ [finishAt next]) ∧
      closers.length = n ∧ ∀ c ∈ closers, c.kind = .closing := by
  obtain ⟨_, cut, same⟩ := cut_of_scan scanned
  obtain ⟨rfl, _⟩ := List.append_inj' same rfl
  obtain ⟨closers, closings, size, closing⟩ := exists_closings (0 + Text.byteLength source.toList) n
  have apart : ∀ d ∈ (List.replicate n ')' ++ []).head?, ∀ kind : TokenKind, kind.grows d = false := by
    intro d first
    cases n with
    | zero => cases first
    | succ n =>
      cases first
      exact grows_closing
  have whole := (cut.lexes apart).append (closings.lexes fun _ first => by cases first)
  have all := whole.tokens
  rw [← String.toList_ofList (l := List.replicate n ')'), ← String.toList_append] at all
  exact ⟨closers, _, all, size, closing⟩

theorem mem_of_mem_stillOpen {t : Token} {outer tokens : List Token} (h : t ∈ stillOpen outer tokens) :
    t ∈ outer ∨ t ∈ tokens := by
  induction tokens generalizing outer with
  | nil => exact .inl h
  | cons u tokens ih =>
    rw [stillOpen] at h
    split at h
    · rcases ih h with opened | later
      · rcases List.mem_cons.mp opened with rfl | outside
        · exact .inr List.mem_cons_self
        · exact .inl outside
      · exact .inr (List.mem_cons_of_mem _ later)
    · exact (ih h).imp List.mem_of_mem_tail (List.mem_cons_of_mem _)
    · exact (ih h).imp id (List.mem_cons_of_mem _)

theorem starts_increase {tokens : List Token} (scanned : tokenize source = .ok tokens) :
    tokens.Pairwise fun a b => a.start < b.start := by
  obtain ⟨body, cut, rfl⟩ := cut_of_scan scanned
  refine List.pairwise_append.mpr ⟨?_, List.pairwise_singleton _ _, ?_⟩
  · refine cut.ordered.imp_of_mem fun {a b} member _ before => ?_
    have width := (cut.stands a member).offset_le.2
    omega
  · intro a member b last
    cases List.mem_singleton.mp last
    have width := (cut.stands a member).offset_le.2
    exact Nat.lt_of_lt_of_le width (cut.stands a member).stop_le

end Token

namespace Expr

variable {source : String} {settings : Settings} {body : List Token} {stop : Nat}

theorem parse_eq_error {e : ParseError} (nonblank : Text.allBlank source = false)
    (scanned : Token.tokenize source = .ok (body ++ [Token.finishAt stop]))
    (each : ∀ t ∈ body, t.Scanned) (failed : parse source settings = .error e) :
    (∃ rest, Fails (settings.rules stop) .expression 0 body e rest) ∨
      ∃ used c rest, body = used ++ c :: rest ∧ Forms .expression (used.map Token.kind) ∧
        c.kind = .closing ∧ e = .unmatchedParen c.start := by
  rw [parse_of_tokens nonblank scanned] at failed
  split at failed
  · next x rest read =>
    cases failed
    exact .inl ((settings.rules stop).fails_of_read .expression 0 body read)
  · next tree rest read =>
    obtain ⟨_, derived⟩ := (settings.rules stop).derives_of_read .expression 0 body read
    have ends : nextOperator rest = .ok none := derived.endsBefore
    obtain ⟨used, rfl, forms⟩ := forms_of_read read
    cases rest with
    | nil => cases failed
    | cons c rest =>
      rcases nextOperator_eq_none ends with closing | finish
      · simp only [ReadRules.peek, closing] at failed
        cases failed
        exact .inr ⟨used, c, rest, rfl, forms, closing, rfl⟩
      · exact absurd finish (each c (by simp)).kind_ne

theorem parse_closed (nonblank : Text.allBlank source = false)
    (scanned : Token.tokenize source = .ok (body ++ [Token.finishAt stop])) {opened : List Token}
    (closable : Closable (settings.rules stop) .expression 0 body opened) :
    ∃ e, parse (source ++ String.ofList (List.replicate opened.length ')')) settings = .ok e := by
  obtain ⟨closers, next, scanned', size, closing⟩ := Token.tokenize_closings scanned opened.length
  obtain ⟨e, levels, derived, room⟩ := closable closers [] ⟨size, closing⟩ rfl
  have nonblank' : Text.allBlank (source ++ String.ofList (List.replicate opened.length ')')) = false := by
    have blank : source.toList.all Text.isBlank = false := nonblank
    simp [Text.allBlank, blank]
  rw [List.append_nil] at derived
  exact ⟨e, parse_of_derives nonblank' scanned' derived room⟩

theorem nonblank_of_parse {e : ParseError} (failed : parse source settings = .error e)
    (other : e ≠ .emptyExpression) : Text.allBlank source = false := by
  cases blank : Text.allBlank source with
  | false => rfl
  | true =>
    rw [parse, parseOr, if_pos blank] at failed
    exact absurd (Except.error.inj failed).symm other

/-- A token is reported as unexpected, or a closing parenthesis as unmatched, where the tokens
first are no beginning of a sentence. An opening parenthesis is reported when the tokens begin
a sentence and it is the innermost one still open behind them; then the source with all closing
parentheses added is read under the same limits. The offset tells the token, since no two
tokens begin at the same one. -/
theorem parse_fails_earliest {tokens : List Token} (settings : Settings)
    (scanned : Token.tokenize source = .ok tokens) :
    (∀ text offset, parse source settings = .error (.unexpectedToken text offset) →
      ∃ i t, tokens[i]? = some t ∧ offset = t.start ∧ text = t.description ∧
        Token.FirstBad tokens i) ∧
    (∀ offset, parse source settings = .error (.unmatchedParen offset) →
      ∃ i t, tokens[i]? = some t ∧ offset = t.start ∧
        (t.kind = .closing ∧ Token.FirstBad tokens i ∨
          t.kind = .opening ∧ (Token.stillOpen [] tokens).head? = some t ∧
          Begins (Token.kinds tokens) ∧
          ∃ e, parse (source ++ String.ofList (List.replicate (Token.stillOpen [] tokens).length ')'))
            settings = .ok e)) ∧
    tokens.Pairwise fun a b => a.start < b.start := by
  obtain ⟨body, stop, rfl, each⟩ := Token.tokenize_split scanned
  refine ⟨?_, ?_, Token.starts_increase scanned⟩
  · intro text offset failed
    have nonblank := nonblank_of_parse failed ParseError.noConfusion
    rcases parse_eq_error nonblank scanned each failed with ⟨rest, fails⟩ | ⟨_, _, _, _, _, _, other⟩
    · obtain ⟨used, q, rfl, leads, refused⟩ := fails.leads
      obtain ⟨same, refused⟩ := refused _ _ rfl
      obtain ⟨after, next⟩ : ∃ after,
          rest ++ [Token.finishAt stop] = (settings.rules stop).peek rest :: after := by
        cases rest <;> exact ⟨_, rfl⟩
      obtain ⟨k, reached⟩ := leads.walk 0
      obtain ⟨found, bad⟩ := Token.firstBad_of_walk leads.begins reached (refused k)
      obtain ⟨rfl, rfl⟩ := ParseError.unexpectedToken.inj same
      rw [List.append_assoc, next]
      exact ⟨_, _, found, rfl, rfl, bad⟩
    · cases other
  · intro offset failed
    have nonblank := nonblank_of_parse failed ParseError.noConfusion
    rcases parse_eq_error nonblank scanned each failed with
      ⟨rest, fails⟩ | ⟨used, c, rest, rfl, forms, closing, same⟩
    · obtain ⟨rfl, t, opened, opens, start, innermost, closable⟩ :=
        fails.closable fun t member => (each t member).kind_ne
      obtain ⟨used, q, all, leads, _⟩ := fails.leads
      rw [List.append_nil] at all
      subst all
      have unfinished : Token.stillOpen [] (body ++ [Token.finishAt stop]) = t :: opened := by
        simp [Token.stillOpen_append, innermost, Token.stillOpen, Token.finishAt]
      have member : t ∈ Token.stillOpen [] (body ++ [Token.finishAt stop]) := unfinished ▸ List.mem_cons_self
      have inside := (Token.mem_of_mem_stillOpen member).resolve_left List.not_mem_nil
      obtain ⟨i, found⟩ := List.mem_iff_getElem?.mp inside
      refine ⟨i, t, found, start.symm, .inr ⟨opens, by rw [unfinished]; rfl, ?_, ?_⟩⟩
      · rw [Token.kinds_split stop each]
        exact leads.begins
      · rw [unfinished]
        exact parse_closed nonblank scanned closable
    · obtain rfl := ParseError.unmatchedParen.inj same
      have leads : Leads .expression (used.map Token.kind) .tail := .of_expression forms
      obtain ⟨found, bad⟩ := Token.firstBad_of_walk leads.begins (forms.walk 0)
        (show Progress.step (.complete 0) c.kind = none by rw [closing]; rfl)
      rw [List.append_assoc, List.cons_append]
      exact ⟨_, c, found, rfl, .inl ⟨closing, bad⟩⟩

theorem parse_fails_earliest_open_sum :
    let tokens : List Token := [⟨.opening, 0, 1, "("⟩, ⟨.number, 1, 2, "1"⟩, ⟨.operator .add, 2, 3, "+"⟩,
      ⟨.opening, 3, 4, "("⟩, ⟨.number, 4, 5, "2"⟩, .finishAt 5]
    Token.tokenize "(1+(2" = .ok tokens ∧ parse "(1+(2" .standard = .error (.unmatchedParen 3) ∧
      Begins (Token.kinds tokens) ∧ ∃ e, parse "(1+(2))" .standard = .ok e := by
  intro tokens
  have scanned : Token.tokenize "(1+(2" = .ok tokens := by decide +kernel
  have failed : parse "(1+(2" .standard = .error (.unmatchedParen 3) := by decide +kernel
  have unclosed : ∀ t ∈ tokens, t.kind ≠ .closing := by decide
  have text : "(1+(2" ++ String.ofList (List.replicate (Token.stillOpen [] tokens).length ')') =
      "(1+(2))" := by decide
  obtain ⟨i, t, found, _, ⟨closing, _⟩ | ⟨_, _, begins, closed⟩⟩ :=
    (parse_fails_earliest .standard scanned).2.1 3 failed
  · exact absurd closing (unclosed t (List.mem_of_getElem? found))
  · rw [text] at closed
    exact ⟨scanned, failed, begins, closed⟩

end Expr

end Reckoner
