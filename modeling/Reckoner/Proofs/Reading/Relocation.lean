import Reckoner.Proofs.Reading.Stopping

/-! Tokens that are moved. Reading looks at the kinds and the texts of tokens; where they stand
is only reported. So when every token is moved, the same tokens are read to the same expression,
or the reading fails with the same error at the same token, wherever that token is now. Two
sources with the same words differ in such a way, also when they are blank. -/
namespace Reckoner

/-- Where tokens are moved to: a token that begins at an offset now has this start and this stop. -/
structure Relocation where
  start : Nat → Nat
  stop : Nat → Nat

namespace ParseError

def offset? : ParseError → Option Nat
  | .emptyExpression => none
  | .unknownToken _ offset | .unexpectedToken _ offset | .unmatchedParen offset
  | .invalidLiteral offset _ | .nestingTooDeep _ offset => some offset

def relocate (place : Nat → Nat) : ParseError → ParseError
  | .emptyExpression => .emptyExpression
  | .unknownToken text offset => .unknownToken text (place offset)
  | .unexpectedToken text offset => .unexpectedToken text (place offset)
  | .unmatchedParen offset => .unmatchedParen (place offset)
  | .invalidLiteral offset cause => .invalidLiteral (place offset) cause
  | .nestingTooDeep limit offset => .nestingTooDeep limit (place offset)

theorem relocate_congr {place other : Nat → Nat} {e : ParseError} {offset : Nat}
    (h : e.offset? = some offset) (same : place offset = other offset) : e.relocate place = e.relocate other := by
  cases e with
  | emptyExpression => rfl
  | _ =>
    cases h
    simp only [relocate, same]

end ParseError

namespace Token

variable {place : Relocation} {t : Token} {ts us : List Token}

def relocate (place : Relocation) (t : Token) : Token :=
  { t with start := place.start t.start, stop := place.stop t.start }

@[simp] theorem relocate_kind (place : Relocation) (t : Token) : (t.relocate place).kind = t.kind := rfl

@[simp] theorem relocate_text (place : Relocation) (t : Token) : (t.relocate place).text = t.text := rfl

theorem exists_relocation (apart : (ts.map start).Nodup) (kinds : us.map kind = ts.map kind)
    (texts : us.map text = ts.map text) : ∃ place, us = ts.map (relocate place) := by
  induction ts generalizing us with
  | nil => exact ⟨⟨id, id⟩, List.map_eq_nil_iff.mp kinds⟩
  | cons t ts ih =>
    obtain ⟨u, us, rfl⟩ : ∃ u rest, us = u :: rest := by
      cases us with
      | nil => cases kinds
      | cons u us => exact ⟨u, us, rfl⟩
    rw [List.map_cons, List.nodup_cons] at apart
    rw [List.map_cons, List.map_cons, List.cons.injEq] at kinds texts
    obtain ⟨place, rfl⟩ := ih apart.2 kinds.2 texts.2
    refine ⟨⟨fun n => if n = t.start then u.start else place.start n,
      fun n => if n = t.start then u.stop else place.stop n⟩, ?_⟩
    rw [List.map_cons]
    congr 1
    · simp only [relocate, if_true, ← kinds.1, ← texts.1]
    · refine List.map_congr_left fun v member => ?_
      have other : v.start ≠ t.start := fun same => apart.1 (same ▸ List.mem_map_of_mem member)
      simp only [relocate, if_neg other]

end Token

theorem nextOperator_relocate (place : Relocation) (ts : List Token) :
    nextOperator (ts.map (Token.relocate place)) =
      (nextOperator ts).mapError (ParseError.relocate place.start) := by
  cases ts with
  | nil => rfl
  | cons t ts =>
    rw [List.map_cons, nextOperator, nextOperator, Token.relocate_kind]
    cases t.kind <;> rfl

theorem tighterFollows_relocate (place : Relocation) (op : Operator) (ts : List Token) :
    tighterFollows op (ts.map (Token.relocate place)) =
      (tighterFollows op ts).mapError (ParseError.relocate place.start) := by
  rw [tighterFollows, tighterFollows, nextOperator_relocate]
  cases nextOperator ts <;> rfl

def Reading.relocate (place : Relocation) (r : Reading) : Reading :=
  ⟨r.outcome.mapError (ParseError.relocate place.start), r.rest.map (Token.relocate place)⟩

namespace ReadRules

def relocate (place : Relocation) (rules : ReadRules) : ReadRules :=
  { rules with finish := rules.finish.relocate place, finish_kind := rules.finish_kind }

@[simp] theorem relocate_limit (place : Relocation) (rules : ReadRules) :
    (rules.relocate place).limit = rules.limit := rfl

@[simp] theorem relocate_maxDepth (place : Relocation) (rules : ReadRules) :
    (rules.relocate place).maxDepth = rules.maxDepth := rfl

theorem peek_relocate (place : Relocation) (rules : ReadRules) (ts : List Token) :
    (rules.relocate place).peek (ts.map (Token.relocate place)) = (rules.peek ts).relocate place := by
  cases ts <;> rfl

/-- Reading moved tokens is reading them where they were and moving what is reported. -/
def Relocates (place : Relocation) (rules : ReadRules) (goal : Goal) (depth : Nat) (ts : List Token) : Prop :=
  (rules.relocate place).read goal depth (ts.map (Token.relocate place)) =
    (rules.read goal depth ts).relocate place

section

variable {place : Relocation} {rules : ReadRules} {depth : Nat} {t : Token} {ts : List Token}

theorem relocates_expression (below : Goal.Below (Relocates place rules) (3 * ts.length + 2)) :
    Relocates place rules .expression depth ts := by
  unfold Relocates at *
  rw [read_expression, read_expression, relocate_maxDepth]
  split
  · rw [below .operand _ ts (by simp only [Goal.rank]; omega)]
    cases operand : rules.read .operand (depth + 1) ts with
    | mk outcome mid =>
      cases outcome with
      | error e => rfl
      | ok left =>
        have shorter := (suffix_of_read operand).length_le
        exact below (.chain left 0) _ mid (by simp only [Goal.rank]; omega)
  · rw [peek_relocate]
    rfl

theorem relocates_operand (below : Goal.Below (Relocates place rules) (3 * (t :: ts).length)) :
    Relocates place rules .operand depth (t :: ts) := by
  unfold Relocates at *
  rw [List.length_cons] at below
  rw [List.map_cons, read_operand_cons, read_operand_cons, Token.relocate_kind]
  cases t.kind with
  | number =>
    rw [Token.relocate_text, relocate_limit]
    cases Numeral.ofDecimal t.text rules.limit <;> rfl
  | name => rfl
  | opening =>
    dsimp only
    rw [below .expression _ ts (by simp only [Goal.rank]; omega)]
    cases rules.read .expression depth ts with
    | mk outcome rest =>
      cases outcome with
      | error e => rfl
      | ok e =>
        cases rest with
        | nil => rfl
        | cons c rest =>
          by_cases closes : c.kind = .closing
          · simp [Reading.relocate, Except.mapError, closes]
          · simp [Reading.relocate, Except.mapError, closes]
            rfl
  | root =>
    dsimp only
    rw [relocate_maxDepth]
    split
    · rw [below .operand _ ts (by simp only [Goal.rank]; omega)]
      cases rules.read .operand (depth + 1) ts with
      | mk outcome rest => cases outcome <;> rfl
    · rfl
  | operator op => rfl
  | closing => rfl
  | finish => rfl

theorem relocates_chain {left : Expr} {floor : Nat}
    (below : Goal.Below (Relocates place rules) (3 * (t :: ts).length)) :
    Relocates place rules (.chain left floor) depth (t :: ts) := by
  unfold Relocates at *
  rw [List.length_cons] at below
  rw [List.map_cons, read_chain_cons, read_chain_cons, Token.relocate_kind]
  cases t.kind with
  | operator op =>
    dsimp only
    split
    · rfl
    · rw [below .operand _ ts (by simp only [Goal.rank]; omega)]
      cases operand : rules.read .operand depth ts with
      | mk outcome mid =>
        have shorter := (suffix_of_read operand).length_le
        cases outcome with
        | error e => rfl
        | ok right =>
          simp only [Reading.relocate, Except.mapError, tighterFollows_relocate]
          cases tighterFollows op mid with
          | error e => rfl
          | ok tight =>
            cases tight with
            | false => exact below (.chain _ floor) _ mid (by simp only [Goal.rank]; omega)
            | true =>
              dsimp only
              rw [relocate_maxDepth]
              split
              · rw [below (.chain right (floor + 1)) _ mid (by simp only [Goal.rank]; omega)]
                cases climb : rules.read (.chain right (floor + 1)) (depth + 1) mid with
                | mk outcome after =>
                  have shorter' := (suffix_of_read climb).length_le
                  cases outcome with
                  | error e => rfl
                  | ok operand => exact below (.chain _ floor) _ after (by simp only [Goal.rank]; omega)
              · rw [peek_relocate]
                rfl
  | _ => rfl

end

theorem relocates (place : Relocation) (rules : ReadRules) (goal : Goal) (depth : Nat) (ts : List Token) :
    Relocates place rules goal depth ts := by
  induction goal, depth, ts using Goal.reading_induction with
  | expression depth ts below => exact relocates_expression below
  | operand_nil depth =>
    rw [Relocates, List.map_nil, read_operand_nil, read_operand_nil]
    rfl
  | operand_cons depth t ts below => exact relocates_operand below
  | chain_nil left floor depth =>
    rw [Relocates, List.map_nil, read_chain_nil, read_chain_nil]
    rfl
  | chain_cons left floor depth t ts below => exact relocates_chain below

theorem peek_mem (rules : ReadRules) (ts : List Token) : rules.peek ts ∈ ts ++ [rules.finish] := by
  cases ts with
  | nil => exact List.mem_singleton_self _
  | cons t ts => exact List.mem_cons_self

end ReadRules

theorem Blames.offset {rules : ReadRules} {e : ParseError} {ts : List Token} (h : Blames rules e ts) :
    ∃ t ∈ ts ++ [rules.finish], e.offset? = some t.start := by
  cases h with
  | unexpected => exact ⟨_, rules.peek_mem ts, rfl⟩
  | refused => exact ⟨_, List.mem_cons_self, rfl⟩
  | unclosed => exact ⟨_, List.mem_cons_self, rfl⟩
  | deep => exact ⟨_, rules.peek_mem ts, rfl⟩

namespace Token

variable {source : String} {body tokens : List Token} {stop : Nat}

theorem starts_nodup (scanned : tokenize source = .ok tokens) : (tokens.map start).Nodup :=
  List.pairwise_map.mpr ((starts_increase scanned).imp Nat.ne_of_lt)

theorem Cut.blank {offset : Nat} {cs : List Char} (h : Cut offset cs body) (empty : body = []) :
    cs.all Text.isBlank = true := by
  induction h with
  | done => rfl
  | @gap offset c cs body space _ ih =>
    have first : Text.isBlank c = true := by
      simp only [Text.isGap, Bool.or_eq_true, beq_iff_eq] at space
      rcases space with ((((rfl | rfl) | rfl) | rfl) | rfl) | rfl <;> decide
    rw [List.all_cons, first, ih empty]
    rfl
  | token => cases empty

theorem allBlank_eq (scanned : tokenize source = .ok (body ++ [finishAt stop])) :
    Text.allBlank source = body.isEmpty := by
  cases body with
  | nil =>
    obtain ⟨body, cut, same⟩ := cut_of_scan scanned
    obtain ⟨empty, _⟩ := List.append_inj' same rfl
    exact cut.blank empty.symm
  | cons t body => exact nonblank_of_tokens scanned (List.cons_ne_nil t body)

end Token

namespace Expr

variable {source source' : String} {settings : Settings} {tokens : List Token} {place : Relocation}

theorem parse_relocate (settings : Settings) (scanned : Token.tokenize source = .ok tokens)
    (scanned' : Token.tokenize source' = .ok (tokens.map (Token.relocate place))) :
    Text.allBlank source' = Text.allBlank source ∧
      parse source' settings = (parse source settings).mapError (ParseError.relocate place.start) := by
  obtain ⟨body, stop, rfl, _⟩ := Token.tokenize_split scanned
  obtain ⟨body', stop', split, _⟩ := Token.tokenize_split scanned'
  rw [List.map_append, List.map_singleton] at split
  obtain ⟨rfl, finish⟩ := List.append_inj' split rfl
  have moved : settings.rules stop' = (settings.rules stop).relocate place := by
    simp only [Settings.rules, ReadRules.relocate, ← List.singleton_inj.mp finish]
  rw [List.map_append, List.map_singleton, finish] at scanned'
  have blank : Text.allBlank source' = Text.allBlank source := by
    rw [Token.allBlank_eq scanned, Token.allBlank_eq scanned', List.isEmpty_map]
  refine ⟨blank, ?_⟩
  cases nonblank : Text.allBlank source with
  | true => simp [parse, parseOr, blank, nonblank, Except.mapError, ParseError.relocate]
  | false =>
    rw [parse_of_tokens nonblank scanned, parse_of_tokens (blank.trans nonblank) scanned', moved,
      (settings.rules stop).relocates place .expression 0 body]
    cases (settings.rules stop).read .expression 0 body with
    | mk outcome rest =>
      cases outcome with
      | error e => rfl
      | ok e =>
        simp only [Reading.relocate, Except.mapError, ReadRules.peek_relocate, Token.relocate_kind]
        cases ((settings.rules stop).peek rest).kind <;> rfl

theorem offset_of_parse {e : ParseError} (nonblank : Text.allBlank source = false)
    (scanned : Token.tokenize source = .ok tokens) (failed : parse source settings = .error e) :
    ∃ t ∈ tokens, e.offset? = some t.start := by
  obtain ⟨body, stop, rfl, each⟩ := Token.tokenize_split scanned
  rcases parse_eq_error nonblank scanned each failed with ⟨_, fails⟩ | ⟨used, c, rest, rfl, _, _, rfl⟩
  · obtain ⟨used, rest, rfl, _, blames⟩ := fails.blames
    obtain ⟨t, member, offset⟩ := blames.offset
    refine ⟨t, ?_, offset⟩
    rw [List.append_assoc]
    exact List.mem_append_right used member
  · exact ⟨c, by simp, rfl⟩

/-- Sources with the same words, in the same order, are read to the same expression, or they
fail with the same error, which each reports at its own place of the same token. One of them is
blank only if the other is, and then both are refused as empty. -/
theorem parse_of_same_words {tokens' : List Token} (settings : Settings)
    (scanned : Token.tokenize source = .ok tokens) (scanned' : Token.tokenize source' = .ok tokens')
    (kinds : tokens'.map Token.kind = tokens.map Token.kind)
    (texts : tokens'.map Token.text = tokens.map Token.text) :
    Text.allBlank source' = Text.allBlank source ∧
    (Text.allBlank source = true →
      parse source settings = .error .emptyExpression ∧ parse source' settings = .error .emptyExpression) ∧
    (Text.allBlank source = false →
      (∃ e, parse source settings = .ok e ∧ parse source' settings = .ok e) ∨
      ∃ (e : ParseError) (i : Nat) (t t' : Token), tokens[i]? = some t ∧ tokens'[i]? = some t' ∧
        e.offset? = some t.start ∧ parse source settings = .error e ∧
        parse source' settings = .error (e.relocate fun _ => t'.start)) := by
  obtain ⟨place, rfl⟩ := Token.exists_relocation (Token.starts_nodup scanned) kinds texts
  obtain ⟨blank, moved⟩ := parse_relocate settings scanned scanned'
  refine ⟨blank, fun all => ?_, fun nonblank => ?_⟩
  · have empty : parse source settings = .error .emptyExpression := if_pos all
    exact ⟨empty, moved.trans (congrArg _ empty)⟩
  · cases outcome : parse source settings with
    | ok e => exact .inl ⟨e, rfl, moved.trans (congrArg _ outcome)⟩
    | error e =>
      obtain ⟨t, member, offset⟩ := offset_of_parse nonblank scanned outcome
      obtain ⟨i, found⟩ := List.mem_iff_getElem?.mp member
      have found' : (tokens.map (Token.relocate place))[i]? = some (t.relocate place) := by
        rw [List.getElem?_map, found]
        rfl
      refine .inr ⟨e, i, t, t.relocate place, found, found', offset, rfl, ?_⟩
      rw [moved, outcome]
      exact congrArg Except.error (ParseError.relocate_congr offset rfl)

theorem parse_of_same_words_open_sum :
    let tokens : List Token := [⟨.number, 0, 1, "1"⟩, ⟨.operator .add, 1, 2, "+"⟩, ⟨.opening, 2, 3, "("⟩,
      ⟨.number, 3, 4, "2"⟩, .finishAt 4]
    let tokens' : List Token := [⟨.number, 1, 2, "1"⟩, ⟨.operator .add, 2, 3, "+"⟩, ⟨.opening, 5, 6, "("⟩,
      ⟨.number, 7, 8, "2"⟩, .finishAt 9]
    Token.tokenize "1+(2" = .ok tokens ∧ Token.tokenize " 1+\t ( 2\n" = .ok tokens' ∧
      tokens'.map Token.kind = tokens.map Token.kind ∧ tokens'.map Token.text = tokens.map Token.text ∧
      parse "1+(2" .standard = .error (.unmatchedParen 2) ∧
      parse " 1+\t ( 2\n" .standard = .error (.unmatchedParen 5) := by
  intro tokens tokens'
  have scanned : Token.tokenize "1+(2" = .ok tokens := by decide +kernel
  have scanned' : Token.tokenize " 1+\t ( 2\n" = .ok tokens' := by decide +kernel
  have kinds : tokens'.map Token.kind = tokens.map Token.kind := by decide
  have texts : tokens'.map Token.text = tokens.map Token.text := by decide
  have failed : parse "1+(2" .standard = .error (.unmatchedParen 2) := by decide +kernel
  have starts : ∀ i < 5, ∀ t ∈ tokens[i]?, ∀ t' ∈ tokens'[i]?, t.start = 2 → t'.start = 5 := by decide
  refine ⟨scanned, scanned', kinds, texts, failed, ?_⟩
  obtain ⟨_, _, outcome⟩ := parse_of_same_words .standard scanned scanned' kinds texts
  rcases outcome (by decide) with ⟨e, read, _⟩ | ⟨e, i, t, t', found, found', offset, same, moved⟩
  · rw [failed] at read
    cases read
  · obtain rfl := Except.error.inj (failed.symm.trans same)
    have inside : i < 5 := (List.getElem?_eq_some_iff.mp found).1
    have start := starts i inside t found t' found' (Option.some.inj offset).symm
    rw [moved, start]
    rfl

end Expr
end Reckoner
