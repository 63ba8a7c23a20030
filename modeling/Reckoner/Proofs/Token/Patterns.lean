import Reckoner.Proofs.Token.Segmentation

/-! The patterns that tokens are declared by, and what is relied on of a scanner that is
generated from them: it takes the longest piece that any pattern describes, of two patterns
for one piece a single text before a run, and stops at a character that begins no piece.
Whatever scanner does that, called again and again, makes the tokens of the scan. -/
namespace Reckoner.Token

inductive Pattern where
  | text (cs : List Char)
  | run (belongs : Char → Bool)

namespace Pattern

def Describes : Pattern → List Char → Prop
  | .text cs, piece => piece = cs
  | .run belongs, piece => piece ≠ [] ∧ ∀ c ∈ piece, belongs c = true

def rank : Pattern → Nat
  | .text _ => 1
  | .run _ => 0

end Pattern

/-- The declarations; what is declared for no kind is passed over. -/
inductive Declared : Option TokenKind → Pattern → Prop where
  | gap : Declared none (.run Text.isGap)
  | number : Declared (some .number) (.run Text.isDigit)
  | name : Declared (some .name) (.run Text.isLetter)
  | root : Declared (some .root) (.text keyword)
  | operator (op : Operator) : Declared (some (.operator op)) (.text op.symbol.toList)
  | opening : Declared (some .opening) (.text ['('])
  | closing : Declared (some .closing) (.text [')'])

/-- The longest match at the beginning of a text, and of patterns that describe it the one of
the highest rank. -/
structure Takes (cs : List Char) (kind? : Option TokenKind) (piece rest : List Char) : Prop where
  parts : cs = piece ++ rest
  best : ∃ p, Declared kind? p ∧ p.Describes piece ∧
    ∀ other q piece' rest', Declared other q → q.Describes piece' → cs = piece' ++ rest' →
      piece'.length < piece.length ∨ piece' = piece ∧ q.rank ≤ p.rank

inductive Turn where
  | finish
  | token (kind : TokenKind) (passed piece rest : List Char)
  | unknown (passed : List Char) (c : Char)

def Turn.behind (gap : List Char) : Turn → Turn
  | .finish => .finish
  | .token kind passed piece rest => .token kind (gap ++ passed) piece rest
  | .unknown passed c => .unknown (gap ++ passed) c

/-- What is relied on of the calls of a generated scanner. -/
structure Generated (next : List Char → Turn) : Prop where
  finish : next [] = .finish
  skip : ∀ {cs piece rest : List Char}, Takes cs none piece rest → next cs = (next rest).behind piece
  token : ∀ {cs piece rest : List Char} {kind : TokenKind},
    Takes cs (some kind) piece rest → next cs = .token kind [] piece rest
  unknown : ∀ {cs : List Char} {c : Char}, (∀ kind? piece rest, ¬ Takes (c :: cs) kind? piece rest) →
    next (c :: cs) = .unknown [] c

inductive Collects (next : List Char → Turn) : Nat → List Char → Except ParseError (List Token) → Prop where
  | finish {offset : Nat} {cs : List Char} :
      next cs = .finish → Collects next offset cs (.ok [finishAt (offset + Text.byteLength cs)])
  | token {offset : Nat} {cs passed piece rest : List Char} {kind : TokenKind}
      {outcome : Except ParseError (List Token)} :
      next cs = .token kind passed piece rest →
      Collects next (offset + Text.byteLength passed + Text.byteLength piece) rest outcome →
      Collects next offset cs (outcome.map (spanning kind (offset + Text.byteLength passed) piece :: ·))
  | unknown {offset : Nat} {cs passed : List Char} {c : Char} :
      next cs = .unknown passed c →
      Collects next offset cs (.error (.unknownToken c.toString (offset + Text.byteLength passed)))

section

variable {kind other : TokenKind} {kind? : Option TokenKind} {p q : Pattern} {c : Char}
  {cs piece rest piece' rest' : List Char}

theorem Declared.unique (h : Declared kind? p) (h' : Declared kind? q) : p = q := by
  cases h <;> cases h' <;> rfl

theorem Declared.exists_matches (h : Declared (some kind) p) (described : p.Describes piece) :
    ∃ other : TokenKind, other.Matches piece := by
  cases h with
  | number => exact ⟨.number, described⟩
  | root => exact ⟨.root, described⟩
  | operator op => exact ⟨.operator op, described⟩
  | opening => exact ⟨.opening, described⟩
  | closing => exact ⟨.closing, described⟩
  | name =>
    by_cases word : piece = keyword
    · exact ⟨.root, word⟩
    · exact ⟨.name, described.1, described.2, word⟩

theorem exists_declared (h : kind.Matches piece) : ∃ p, Declared (some kind) p ∧ p.Describes piece := by
  cases kind with
  | number => exact ⟨_, .number, h⟩
  | name => exact ⟨_, .name, h.1, h.2.1⟩
  | root => exact ⟨_, .root, h⟩
  | operator op => exact ⟨_, .operator op, h⟩
  | opening => exact ⟨_, .opening, h⟩
  | closing => exact ⟨_, .closing, h⟩
  | finish => cases h

theorem matches_unique (h : kind.Matches piece) (h' : other.Matches piece) : kind = other := by
  obtain ⟨c, more, rfl⟩ := List.exists_cons_of_ne_nil h.ne_nil
  have alone (kind : TokenKind) : ∀ d ∈ ([] : List Char).head?, kind.grows d = false := by
    rintro d ⟨⟩
  have first := leading_of_matches h (alone kind)
  have second := leading_of_matches h' (alone other)
  rw [first] at second
  exact congrArg Prod.fst (Option.some.inj second)

theorem grows_of_joins (other : TokenKind) {d : Char} {more : List Char} (h : kind.Matches piece)
    (all : ∀ x ∈ piece ++ d :: more, other.joins x = true) : kind.grows d = true := by
  obtain ⟨c, start, rfl⟩ := List.exists_cons_of_ne_nil h.ne_nil
  have same := h.joins_eq List.mem_cons_self (all c List.mem_cons_self)
  rw [TokenKind.grows, same, all d (List.mem_append_right _ List.mem_cons_self), Bool.true_or]

theorem grows_of_symbol {d : Char} {more : List Char} {op : Operator} (h : kind.Matches piece)
    (symbol : piece ++ d :: more = op.symbol.toList) : kind.grows d = true := by
  -- only a pair of stars has a sign at its beginning
  obtain ⟨c, start, rfl⟩ := List.exists_cons_of_ne_nil h.ne_nil
  cases op <;> simp [Operator.symbol] at symbol
  obtain ⟨rfl, second⟩ := symbol
  rcases List.append_eq_singleton_iff.mp second with ⟨rfl, single⟩ | ⟨_, empty⟩
  · cases single
    rcases h.of_star List.mem_cons_self with ⟨rfl, _⟩ | ⟨_, pair⟩
    · rfl
    · cases pair
  · cases empty

theorem length_le_of_matches (h : kind.Matches piece) (stop : ∀ d ∈ rest.head?, kind.grows d = false)
    (h' : other.Matches piece') (same : piece ++ rest = piece' ++ rest') :
    piece'.length ≤ piece.length := by
  rcases List.append_eq_append_iff.mp same with ⟨more, rfl, split⟩ | ⟨more, rfl, _⟩
  · cases more with
    | nil => simp
    | cons d more =>
      have two (c : Char) : piece ++ d :: more ≠ [c] := by
        intro single
        rcases List.append_eq_singleton_iff.mp single with ⟨empty, _⟩ | ⟨_, empty⟩
        · exact h.ne_nil empty
        · cases empty
      have grows : kind.grows d = true := by
        cases other with
        | number => exact grows_of_joins .number h h'.2
        | name => exact grows_of_joins .name h (h'.letters (.inl rfl))
        | root => exact grows_of_joins .root h (h'.letters (.inr rfl))
        | operator op => exact grows_of_symbol h h'
        | opening => exact absurd h' (two '(')
        | closing => exact absurd h' (two ')')
        | finish => cases h'
      rw [stop d (by rw [split]; rfl)] at grows
      cases grows
  · simp

theorem gap_apart (h : kind.Matches piece) (nonempty : piece' ≠ []) (gaps : ∀ c ∈ piece', Text.isGap c = true)
    (same : piece ++ rest = piece' ++ rest') : False := by
  obtain ⟨c, start, rfl⟩ := List.exists_cons_of_ne_nil h.ne_nil
  obtain ⟨d, more, rfl⟩ := List.exists_cons_of_ne_nil nonempty
  obtain ⟨rfl, _⟩ := List.cons.inj same
  have visible := (h.known c List.mem_cons_self).2
  rw [gaps c List.mem_cons_self] at visible
  cases visible

theorem takes_gap (nonempty : piece ≠ []) (gaps : ∀ c ∈ piece, Text.isGap c = true)
    (stop : ∀ d ∈ rest.head?, Text.isGap d = false) : Takes (piece ++ rest) none piece rest := by
  refine ⟨rfl, _, .gap, ⟨nonempty, gaps⟩, ?_⟩
  intro other q piece' rest' declared described same
  cases other with
  | some kind =>
    obtain ⟨other, matched⟩ := declared.exists_matches described
    exact (gap_apart matched nonempty gaps same.symm).elim
  | none =>
    cases declared
    rcases List.append_eq_append_iff.mp same with ⟨more, rfl, split⟩ | ⟨more, rfl, _⟩
    · cases more with
      | nil => exact .inr ⟨List.append_nil _, Nat.le_refl _⟩
      | cons d more =>
        have visible := stop d (by rw [split]; rfl)
        rw [described.2 d (List.mem_append_right _ List.mem_cons_self)] at visible
        cases visible
    · cases more with
      | nil => exact .inr ⟨(List.append_nil _).symm, Nat.le_refl _⟩
      | cons d more => exact .inl (by simp)

theorem takes_of_matches (matched : kind.Matches piece) (stop : ∀ d ∈ rest.head?, kind.grows d = false) :
    Takes (piece ++ rest) (some kind) piece rest := by
  obtain ⟨p, declared, described⟩ := exists_declared matched
  refine ⟨rfl, p, declared, described, ?_⟩
  intro other q piece' rest' declared' described' same
  cases other with
  | none =>
    cases declared'
    exact (gap_apart matched described'.1 described'.2 same).elim
  | some other =>
    obtain ⟨_, matched'⟩ := declared'.exists_matches described'
    rcases Nat.lt_or_eq_of_le (length_le_of_matches matched stop matched' same) with shorter | equal
    · exact .inl shorter
    obtain ⟨rfl, _⟩ := List.append_inj same equal.symm
    refine .inr ⟨rfl, ?_⟩
    cases q with
    | run belongs => exact Nat.zero_le _
    | text cs =>
      -- a single text is declared for one kind only
      have whole : other.Matches piece := by cases declared' <;> exact described'
      obtain rfl := matches_unique matched whole
      rw [declared.unique declared']

theorem Takes.not_longer (h : Takes (piece ++ rest) kind? piece rest) {other : Option TokenKind}
    (declared : Declared other q) : ∀ d ∈ rest.head?, ¬ q.Describes (piece ++ [d]) := by
  intro d first described
  obtain ⟨more, rfl⟩ := List.head?_eq_some_iff.mp first
  obtain ⟨_, p, _, _, best⟩ := h
  rcases best other q (piece ++ [d]) more declared described (by simp) with shorter | ⟨same, _⟩
  · rw [List.length_append] at shorter
    omega
  · have lengths := congrArg List.length same
    simp at lengths

theorem Takes.run_stops (h : Takes (piece ++ rest) kind? piece rest) {other : Option TokenKind}
    {belongs : Char → Bool} (declared : Declared other (.run belongs))
    (all : ∀ c ∈ piece, belongs c = true) : ∀ d ∈ rest.head?, belongs d = false := by
  intro d first
  refine Bool.eq_false_iff.mpr fun joined => h.not_longer declared d first ⟨by simp, ?_⟩
  exact List.forall_mem_append.mpr ⟨all, List.forall_mem_singleton.mpr joined⟩

theorem Takes.matches (h : Takes (piece ++ rest) (some kind) piece rest) :
    kind.Matches piece ∧ ∀ d ∈ rest.head?, kind.grows d = false := by
  obtain ⟨_, p, declared, described, best⟩ := id h
  cases declared with
  | number =>
    refine ⟨described, fun d first => ?_⟩
    simp [TokenKind.grows, TokenKind.joins, h.run_stops .number described.2 d first]
  | name =>
    refine ⟨⟨described.1, described.2, fun word => ?_⟩, fun d first => ?_⟩
    · rcases best _ _ piece rest .root word rfl with shorter | ⟨_, rank⟩
      · exact Nat.lt_irrefl _ shorter
      · exact absurd rank (by decide)
    · simp [TokenKind.grows, TokenKind.joins, h.run_stops .name described.2 d first]
  | root =>
    have word : TokenKind.root.Matches piece := described
    refine ⟨word, fun d first => ?_⟩
    simp [TokenKind.grows, TokenKind.joins, h.run_stops .name (word.letters (.inr rfl)) d first]
  | operator op =>
    refine ⟨described, fun d first => ?_⟩
    by_cases pair : op = .mul ∧ d = '*'
    · obtain ⟨rfl, rfl⟩ := pair
      have star : piece = ['*'] := described
      subst star
      exact absurd rfl (h.not_longer (.operator .pow) '*' first)
    · simpa [TokenKind.grows, TokenKind.joins] using pair
  | opening => exact ⟨described, fun _ _ => rfl⟩
  | closing => exact ⟨described, fun _ _ => rfl⟩

theorem takes_iff : Takes cs (some kind) piece rest ↔
    cs = piece ++ rest ∧ kind.Matches piece ∧ ∀ d ∈ rest.head?, kind.grows d = false := by
  constructor
  · intro h
    obtain rfl := h.parts
    exact ⟨rfl, h.matches⟩
  · rintro ⟨rfl, matched, stop⟩
    exact takes_of_matches matched stop

end

def nextTurn : List Char → Turn
  | [] => .finish
  | c :: cs =>
    if Text.isGap c then (nextTurn cs).behind [c]
    else
      match leading c cs with
      | none => .unknown [] c
      | some (kind, more) => .token kind [] (c :: more) (cs.drop more.length)

section

variable {next : List Char → Turn} {offset : Nat} {c : Char} {cs piece rest : List Char} {kind : TokenKind}
  {outcome other : Except ParseError (List Token)}

theorem Turn.behind_append (gap more : List Char) (t : Turn) : t.behind (gap ++ more) = (t.behind more).behind gap := by
  cases t <;> simp [Turn.behind]

theorem nextTurn_gaps (gaps : ∀ c ∈ piece, Text.isGap c = true) (nonempty : piece ≠ []) (rest : List Char) :
    nextTurn (piece ++ rest) = (nextTurn rest).behind piece := by
  induction piece with
  | nil => exact absurd rfl nonempty
  | cons c piece ih =>
    obtain ⟨first, later⟩ := List.forall_mem_cons.mp gaps
    rw [List.cons_append, nextTurn, if_pos first]
    cases piece with
    | nil => rfl
    | cons d piece =>
      rw [ih later (List.cons_ne_nil d piece), ← Turn.behind_append]
      rfl

theorem nextTurn_piece (matched : kind.Matches piece) (stop : ∀ d ∈ rest.head?, kind.grows d = false) :
    nextTurn (piece ++ rest) = .token kind [] piece rest := by
  obtain ⟨c, more, rfl⟩ := List.exists_cons_of_ne_nil matched.ne_nil
  have gap := (matched.known c List.mem_cons_self).2
  rw [List.cons_append, nextTurn, gap, leading_of_matches matched stop]
  simp

theorem takes_cases (c : Char) (cs : List Char) :
    (∃ piece rest, Takes (c :: cs) none piece rest) ∨
    (∃ kind piece rest, Takes (c :: cs) (some kind) piece rest) ∨ ¬ Text.Known c := by
  by_cases known : Text.Known c
  · cases space : Text.isGap c with
    | true =>
      have gaps : ∀ d ∈ c :: cs.takeWhile Text.isGap, Text.isGap d = true :=
        List.forall_mem_cons.mpr ⟨space, List.all_eq_true.mp List.all_takeWhile⟩
      have taken := takes_gap (List.cons_ne_nil _ _) gaps (dropWhile_stop Text.isGap cs)
      rw [List.cons_append, List.takeWhile_append_dropWhile] at taken
      exact .inl ⟨_, _, taken⟩
    | false =>
      obtain ⟨kind, more, rest, rfl, matched, stop⟩ := exists_piece known space cs
      exact .inr (.inl ⟨kind, c :: more, rest, takes_iff.mpr ⟨rfl, matched, stop⟩⟩)
  · exact .inr (.inr known)

theorem generated_nextTurn : Generated nextTurn where
  finish := rfl
  skip := by
    rintro cs piece rest ⟨rfl, p, declared, described, _⟩
    cases declared
    exact nextTurn_gaps described.2 described.1 rest
  token := by
    intro cs piece rest kind taken
    obtain ⟨rfl, matched, stop⟩ := takes_iff.mp taken
    exact nextTurn_piece matched stop
  unknown := by
    intro cs c nothing
    rcases takes_cases c cs with ⟨_, _, taken⟩ | ⟨_, _, _, taken⟩ | unknown
    · exact absurd taken (nothing _ _ _)
    · exact absurd taken (nothing _ _ _)
    · rw [nextTurn, not_gap_of_unknown unknown, leading_unknown unknown]
      rfl

theorem not_takes_of_unknown (unknown : ¬ Text.Known c) (kind? : Option TokenKind) (piece rest : List Char) :
    ¬ Takes (c :: cs) kind? piece rest := by
  intro taken
  cases kind? with
  | some kind =>
    obtain ⟨parts, matched, _⟩ := takes_iff.mp taken
    obtain ⟨d, more, rfl⟩ := List.exists_cons_of_ne_nil matched.ne_nil
    obtain ⟨rfl, _⟩ := List.cons.inj parts
    exact unknown (matched.known c List.mem_cons_self).1
  | none =>
    obtain ⟨parts, p, declared, described, _⟩ := taken
    cases declared
    obtain ⟨d, more, rfl⟩ := List.exists_cons_of_ne_nil described.1
    obtain ⟨rfl, _⟩ := List.cons.inj parts
    exact unknown (.inr (.inr (.inr (described.2 c List.mem_cons_self))))

theorem scan_gaps (gaps : ∀ c ∈ piece, Text.isGap c = true) (offset : Nat) (rest : List Char) :
    scan offset (piece ++ rest) [] = scan (offset + Text.byteLength piece) rest [] := by
  induction piece generalizing offset with
  | nil => rfl
  | cons c piece ih =>
    obtain ⟨first, later⟩ := List.forall_mem_cons.mp gaps
    rw [List.cons_append, scan_gap offset _ first, ih later, Text.byteLength_cons, Nat.add_assoc]

theorem Collects.behind (h : Collects next (offset + Text.byteLength piece) rest outcome)
    (skipped : next (piece ++ rest) = (next rest).behind piece) : Collects next offset (piece ++ rest) outcome := by
  have place (more : List Char) : offset + Text.byteLength piece + Text.byteLength more =
      offset + Text.byteLength (piece ++ more) := by rw [Text.byteLength_append, Nat.add_assoc]
  cases h with
  | finish last =>
    rw [last] at skipped
    rw [place]
    exact .finish skipped
  | token first later =>
    rw [first] at skipped
    rw [place] at later ⊢
    exact .token skipped later
  | unknown first =>
    rw [first] at skipped
    rw [place]
    exact .unknown skipped

theorem Collects.unique (h : Collects next offset cs outcome) (h' : Collects next offset cs other) :
    outcome = other := by
  induction h generalizing other with
  | finish last =>
    cases h' with
    | finish => rfl
    | token first => cases last.symm.trans first
    | unknown first => cases last.symm.trans first
  | token first _ ih =>
    cases h' with
    | finish last => cases first.symm.trans last
    | token first' later =>
      cases first.symm.trans first'
      rw [ih later]
    | unknown first' => cases first.symm.trans first'
  | unknown first =>
    cases h' with
    | finish last => cases first.symm.trans last
    | token first' => cases first.symm.trans first'
    | unknown first' =>
      cases first.symm.trans first'
      rfl

theorem Generated.collects_scan (h : Generated next) (offset : Nat) (cs : List Char) :
    Collects next offset cs (scan offset cs []) := by
  -- by the length of the text, since a call takes a gap and a token at once
  induction left : cs.length using Nat.strongRecOn generalizing offset cs with
  | _ n ih =>
  cases cs with
  | nil =>
    rw [scan_nil]
    exact .finish h.finish
  | cons c cs =>
    rcases takes_cases c cs with ⟨piece, rest, taken⟩ | ⟨kind, piece, rest, taken⟩ | unknown
    · have skipped := h.skip taken
      obtain ⟨parts, p, declared, described, _⟩ := taken
      cases declared
      rw [parts] at skipped left ⊢
      have fewer : rest.length < n := by
        have width := List.length_pos_iff.mpr described.1
        rw [List.length_append] at left
        omega
      rw [scan_gaps described.2]
      exact (ih _ fewer _ rest rfl).behind skipped
    · have first := h.token taken
      obtain ⟨parts, matched, stop⟩ := takes_iff.mp taken
      rw [parts] at first left ⊢
      have fewer : rest.length < n := by
        have width := List.length_pos_iff.mpr matched.ne_nil
        rw [List.length_append] at left
        omega
      have scanned : scan offset (piece ++ rest) [] = _ := lexes_piece matched stop
      rw [scanned]
      exact .token first (ih _ fewer _ rest rfl)
    · rw [scan_unknown offset (not_gap_of_unknown unknown) (leading_unknown unknown cs)]
      exact .unknown (h.unknown fun _ _ _ => not_takes_of_unknown unknown _ _ _)

/-- Whatever scanner keeps to the rules, its calls make the tokens of the source or report the
character that the scan reports, and nothing else. -/
theorem Generated.collects_iff (h : Generated next) (source : String) :
    Collects next 0 source.toList outcome ↔ outcome = tokenize source := by
  constructor
  · exact fun collected => collected.unique (h.collects_scan 0 source.toList)
  · rintro rfl
    exact h.collects_scan 0 source.toList

end

end Reckoner.Token
