import Reckoner.Proofs.Reading.Derivation
import Reckoner.Proofs.Token.Scan
import Reckoner.Stream

namespace Reckoner

def Settings.rules (settings : Settings) (stop : Nat) : ReadRules :=
  ⟨settings.digitLimit, settings.maxDepth, Token.finishAt stop, rfl⟩

theorem Stream.start_split (source : String) (body : List Token) (stop : Nat) (settings : Settings) :
    Stream.start source (body ++ [Token.finishAt stop]) settings =
      ⟨source, settings.rules stop, 0, body⟩ := by
  have parts : Stream.closed source (body ++ [Token.finishAt stop]) =
      (body, ⟨Token.finishAt stop, rfl⟩) := by
    simp only [Stream.closed, List.getLast?_concat, List.dropLast_concat]
    rfl
  simp only [Stream.start, parts, Settings.rules]

namespace Expr

variable {source : String} {settings : Settings} {body : List Token} {stop : Nat}

theorem parse_of_tokens (nonblank : Text.allBlank source = false)
    (scanned : Token.tokenize source = .ok (body ++ [Token.finishAt stop])) :
    parse source settings =
      match (settings.rules stop).read .expression 0 body with
      | ⟨.error e, _⟩ => .error e
      | ⟨.ok e, rest⟩ =>
        match ((settings.rules stop).peek rest).kind with
        | .finish => .ok e
        | .closing => .error (.unmatchedParen ((settings.rules stop).peek rest).start)
        | _ => .error ((settings.rules stop).peek rest).unexpected := by
  rw [parse, parseOr, nonblank, scanned]
  simp only [Stream.start_split, Stream.expression, Stream.read, Stream.peek]
  cases (settings.rules stop).read .expression 0 body with
  | mk outcome rest => cases outcome <;> rfl

theorem scanned_of_parse {e : Expr} (h : parse source settings = .ok e) :
    Text.allBlank source = false ∧ ∃ tokens, Token.tokenize source = .ok tokens := by
  unfold parse parseOr at h
  split at h
  · cases h
  · next blank =>
    split at h
    · cases h
    · next tokens scanned => exact ⟨Bool.eq_false_iff.mpr blank, tokens, scanned⟩

theorem derives_of_parse {e : Expr} (h : parse source settings = .ok e) :
    ∃ body stop levels, Token.tokenize source = .ok (body ++ [Token.finishAt stop]) ∧
      (∀ t ∈ body, t.Scanned) ∧ Derives settings.digitLimit .expression body e [] levels := by
  obtain ⟨nonblank, tokens, scanned⟩ := scanned_of_parse h
  obtain ⟨body, stop, rfl, each⟩ := Token.tokenize_split scanned
  rw [parse_of_tokens nonblank scanned] at h
  split at h
  · cases h
  · next tree rest read =>
    obtain ⟨levels, derived⟩ := (settings.rules stop).derives_of_read .expression 0 body read
    cases rest with
    | nil =>
      cases h
      exact ⟨body, stop, levels, scanned, each, derived⟩
    | cons t rest =>
      -- a token left over is not the end of the input
      have member : t ∈ body := (ReadRules.suffix_of_read read).subset List.mem_cons_self
      split at h
      · next finish => exact absurd finish (each t member).kind_ne
      · cases h
      · cases h

section

variable (nonblank : Text.allBlank source = false)
  (scanned : Token.tokenize source = .ok (body ++ [Token.finishAt stop])) {e : Expr} {levels : Nat}
  (derived : Derives settings.digitLimit .expression body e [] levels)

include nonblank scanned derived

theorem parse_of_derives (room : levels ≤ settings.maxDepth) : parse source settings = .ok e := by
  rcases (settings.rules stop).read_of_derives derived 0 with ⟨_, read⟩ | ⟨deep, _⟩
  · rw [parse_of_tokens nonblank scanned, read]
    rfl
  · exact absurd room (Nat.not_le_of_lt deep)

theorem parse_tooDeep (deep : settings.maxDepth < levels) :
    ∃ offset, parse source settings = .error (.nestingTooDeep settings.maxDepth offset) := by
  rcases (settings.rules stop).read_of_derives derived 0 with ⟨room, _⟩ | ⟨_, offset, rest, failed⟩
  · exact absurd room (Nat.not_le_of_lt deep)
  · refine ⟨offset, ?_⟩
    rw [parse_of_tokens nonblank scanned, failed]
    rfl

end

end Expr
end Reckoner
