import Reckoner.Proofs.Token.Lexing

namespace Reckoner

def Text.Known (c : Char) : Prop :=
  isDigit c = true ∨ isLetter c = true ∨ c ∈ ['+', '-', '*', '/', '%', '(', ')'] ∨ isGap c = true

@[simp]
theorem Text.byteLength_nil : byteLength [] = 0 := rfl

@[simp]
theorem Text.byteLength_cons (c : Char) (cs : List Char) :
    byteLength (c :: cs) = c.utf8Size + byteLength cs := rfl

@[simp]
theorem Text.byteLength_append (cs ds : List Char) :
    byteLength (cs ++ ds) = byteLength cs + byteLength ds := by
  induction cs with
  | nil => simp
  | cons c cs ih => simp [ih, Nat.add_assoc]

instance (c : Char) : Decidable (Text.Known c) := inferInstanceAs (Decidable (_ ∨ _))

namespace TokenKind

/-- The pieces of text that are tokens of a kind. -/
def Matches : TokenKind → List Char → Prop
  | .number, piece => piece ≠ [] ∧ ∀ c ∈ piece, Text.isDigit c = true
  | .name, piece => piece ≠ [] ∧ (∀ c ∈ piece, Text.isLetter c = true) ∧ piece ≠ Token.keyword
  | .root, piece => piece = Token.keyword
  | .operator op, piece => piece = op.symbol.toList
  | .opening, piece => piece = ['(']
  | .closing, piece => piece = [')']
  | .finish, _ => False

/-- Digits belong to the number they stand beside, letters to the word. -/
def joins : TokenKind → Char → Bool
  | .number => Text.isDigit
  | .name | .root => Text.isLetter
  | _ => fun _ => false

/-- No piece of this kind ends before such a character. -/
def grows (kind : TokenKind) (c : Char) : Bool :=
  kind.joins c || (decide (kind = .operator .mul) && c == '*')

variable {kind : TokenKind} {piece : List Char}

theorem Matches.ne_nil (h : kind.Matches piece) : piece ≠ [] := by
  cases kind with
  | number => exact h.1
  | name => exact h.1
  | operator op => cases h; cases op <;> decide
  | root => cases h; decide
  | opening => cases h; decide
  | closing => cases h; decide
  | finish => cases h

theorem Matches.letters (h : kind.Matches piece) (word : kind = .name ∨ kind = .root) :
    ∀ c ∈ piece, Text.isLetter c = true := by
  rcases word with rfl | rfl
  · exact h.2.1
  · have all : Token.keyword.all Text.isLetter = true := by decide
    cases h
    exact List.all_eq_true.mp all

theorem Matches.known (h : kind.Matches piece) : ∀ c ∈ piece, Text.Known c ∧ Text.isGap c = false := by
  intro c member
  cases kind with
  | number => exact ⟨.inl (h.2 c member), Text.isGap_of_visible (.inl (h.2 c member))⟩
  | name => exact ⟨.inr (.inl (h.2.1 c member)), Text.isGap_of_visible (.inr (h.2.1 c member))⟩
  | root =>
    have letter := h.letters (.inr rfl) c member
    exact ⟨.inr (.inl letter), Text.isGap_of_visible (.inr letter)⟩
  | operator op =>
    cases h
    refine ⟨.inr (.inr (.inl ?_)), ?_⟩
    · cases op <;> simp_all [Operator.symbol]
    · cases op <;> simp_all [Operator.symbol] <;> decide
  | opening =>
    cases h
    cases List.mem_singleton.mp member
    exact ⟨.inr (.inr (.inl (by decide))), by decide⟩
  | closing =>
    cases h
    cases List.mem_singleton.mp member
    exact ⟨.inr (.inr (.inl (by decide))), by decide⟩
  | finish => cases h

theorem known_of_grows {c : Char} (h : kind.grows c = true) : Text.Known c := by
  rw [grows, Bool.or_eq_true, Bool.and_eq_true, beq_iff_eq] at h
  rcases h with joined | ⟨_, rfl⟩
  · cases kind with
    | number => exact .inl joined
    | name => exact .inr (.inl joined)
    | root => exact .inr (.inl joined)
    | _ => cases joined
  · decide

end TokenKind

namespace Token

def spanning (kind : TokenKind) (offset : Nat) (piece : List Char) : Token :=
  ⟨kind, offset, offset + Text.byteLength piece, String.ofList piece⟩

/-- `cs`, whose first byte stands at `offset`, is cut into these tokens. -/
inductive Cut : Nat → List Char → List Token → Prop where
  | done (offset : Nat) : Cut offset [] []
  | gap {offset : Nat} {c : Char} {cs : List Char} {body : List Token} :
      Text.isGap c = true → Cut (offset + c.utf8Size) cs body → Cut offset (c :: cs) body
  | token {offset : Nat} {kind : TokenKind} {piece rest : List Char} {body : List Token} :
      kind.Matches piece → (∀ c ∈ rest.head?, kind.grows c = false) →
      Cut (offset + Text.byteLength piece) rest body →
      Cut offset (piece ++ rest) (spanning kind offset piece :: body)

variable {kind : TokenKind} {c : Char} {cs more rest : List Char}

theorem leading_star (other : rest.head? ≠ some '*') :
    leading '*' rest = some (.operator .mul, []) := by
  unfold leading
  rw [if_neg (by decide), if_neg (by decide), if_pos rfl]
  split
  · exact absurd rfl other
  · rfl

theorem leading_of_matches (h : kind.Matches (c :: more))
    (stop : ∀ d ∈ rest.head?, kind.grows d = false) : leading c (more ++ rest) = some (kind, more) := by
  have apart : ∀ d ∈ rest.head?, kind.joins d = false :=
    fun d first => (Bool.or_eq_false_iff.mp (stop d first)).1
  cases kind with
  | number =>
    have digits := List.forall_mem_cons.mp h.2
    have run : (more ++ rest).takeWhile Text.isDigit = more :=
      takeWhile_stop (List.all_eq_true.mpr digits.2) apart
    simp only [leading, digits.1, if_true, run]
  | name =>
    have letters := List.forall_mem_cons.mp h.2.1
    have run : (more ++ rest).takeWhile Text.isLetter = more :=
      takeWhile_stop (List.all_eq_true.mpr letters.2) apart
    simp [leading, Text.isDigit_of_isLetter letters.1, letters.1, run, h.2.2]
  | root =>
    have letters := List.forall_mem_cons.mp (h.letters (.inr rfl))
    have run : (more ++ rest).takeWhile Text.isLetter = more :=
      takeWhile_stop (List.all_eq_true.mpr letters.2) apart
    have word : c :: more = keyword := h
    simp [leading, Text.isDigit_of_isLetter letters.1, letters.1, run, word]
  | operator op =>
    cases op with
    | mul =>
      have piece : c :: more = ['*'] := h
      cases piece
      exact leading_star fun first => absurd (stop '*' first) (by decide)
    | _ => cases h; rfl
  | opening => cases h; rfl
  | closing => cases h; rfl
  | finish => cases h

theorem lexes_piece {kind : TokenKind} {piece rest : List Char} {offset : Nat} (matched : kind.Matches piece)
    (stop : ∀ d ∈ rest.head?, kind.grows d = false) :
    Lexes offset piece rest [spanning kind offset piece] (offset + Text.byteLength piece) := by
  obtain ⟨c, more, rfl⟩ := List.exists_cons_of_ne_nil matched.ne_nil
  have gap : Text.isGap c = false := (matched.known c List.mem_cons_self).2
  unfold Lexes
  rw [List.cons_append, scan_token offset gap (leading_of_matches matched stop), List.drop_left]
  rfl

theorem dropWhile_stop (p : Char → Bool) (cs : List Char) : ∀ c ∈ (cs.dropWhile p).head?, p c = false := by
  intro c first
  have stop := List.head?_dropWhile_not p cs
  rw [Option.mem_def.mp first] at stop
  exact stop

theorem exists_piece (known : Text.Known c) (gap : Text.isGap c = false) (cs : List Char) :
    ∃ kind more rest, cs = more ++ rest ∧ TokenKind.Matches kind (c :: more) ∧
      ∀ d ∈ rest.head?, kind.grows d = false := by
  rcases known with digit | letter | sign | gap'
  · refine ⟨.number, cs.takeWhile Text.isDigit, cs.dropWhile Text.isDigit,
      List.takeWhile_append_dropWhile.symm, ⟨List.cons_ne_nil _ _, ?_⟩, ?_⟩
    · exact List.forall_mem_cons.mpr ⟨digit, List.all_eq_true.mp List.all_takeWhile⟩
    · intro d first
      simp [TokenKind.grows, TokenKind.joins, dropWhile_stop Text.isDigit cs d first]
  · let word := c :: cs.takeWhile Text.isLetter
    have letters : ∀ d ∈ word, Text.isLetter d = true :=
      List.forall_mem_cons.mpr ⟨letter, List.all_eq_true.mp List.all_takeWhile⟩
    refine ⟨if word = keyword then .root else .name, cs.takeWhile Text.isLetter,
      cs.dropWhile Text.isLetter, List.takeWhile_append_dropWhile.symm, ?_, ?_⟩
    · split
      · next same => exact same
      · next other => exact ⟨List.cons_ne_nil _ _, letters, other⟩
    · intro d first
      have stop := dropWhile_stop Text.isLetter cs d first
      split <;> simp [TokenKind.grows, TokenKind.joins, stop]
  · simp only [List.mem_cons, List.not_mem_nil, or_false] at sign
    rcases sign with rfl | rfl | rfl | rfl | rfl | rfl | rfl
    · exact ⟨.operator .add, [], cs, rfl, rfl, fun _ _ => rfl⟩
    · exact ⟨.operator .sub, [], cs, rfl, rfl, fun _ _ => rfl⟩
    · cases double : decide (cs.head? = some '*') with
      | true =>
        obtain ⟨rest, rfl⟩ := List.head?_eq_some_iff.mp (of_decide_eq_true double)
        exact ⟨.operator .pow, ['*'], rest, rfl, rfl, fun _ _ => rfl⟩
      | false =>
        refine ⟨.operator .mul, [], cs, rfl, rfl, ?_⟩
        intro d first
        have other : d ≠ '*' := fun star => of_decide_eq_false double (star ▸ first)
        simp [TokenKind.grows, TokenKind.joins, other]
    · exact ⟨.operator .div, [], cs, rfl, rfl, fun _ _ => rfl⟩
    · exact ⟨.operator .rem, [], cs, rfl, rfl, fun _ _ => rfl⟩
    · exact ⟨.opening, [], cs, rfl, rfl, fun _ _ => rfl⟩
    · exact ⟨.closing, [], cs, rfl, rfl, fun _ _ => rfl⟩
  · exact absurd gap' (Bool.eq_false_iff.mp gap)

namespace Cut

variable {offset : Nat} {body : List Token}

theorem known (h : Cut offset cs body) : ∀ c ∈ cs, Text.Known c := by
  induction h with
  | done => exact fun _ member => absurd member List.not_mem_nil
  | gap space _ ih => exact List.forall_mem_cons.mpr ⟨.inr (.inr (.inr space)), ih⟩
  | token piece _ _ ih =>
    exact List.forall_mem_append.mpr ⟨fun c member => (piece.known c member).1, ih⟩

theorem lexes (h : Cut offset cs body) (apart : ∀ d ∈ rest.head?, ∀ kind : TokenKind, kind.grows d = false) :
    Lexes offset cs rest body (offset + Text.byteLength cs) := by
  induction h with
  | done offset =>
    unfold Lexes
    cases scanned : scan offset rest [] <;> simp [Except.map, scanned]
  | @gap offset c cs body space _ ih =>
    unfold Lexes at ih ⊢
    rw [List.cons_append, scan_gap offset _ space, ih, Text.byteLength_cons, Nat.add_assoc]
  | @token offset kind piece after body matched stop _ ih =>
    have alone : ∀ d ∈ (after ++ rest).head?, kind.grows d = false := by
      cases after with
      | nil => exact fun d first => apart d first kind
      | cons d after => exact stop
    rw [Text.byteLength_append, ← Nat.add_assoc]
    exact (lexes_piece matched alone).append ih

theorem scanned (h : Cut offset cs body) :
    scan offset cs [] = .ok (body ++ [finishAt (offset + Text.byteLength cs)]) :=
  (h.lexes fun _ first => by cases first).tokens

end Cut

theorem exists_cut (known : ∀ c ∈ cs, Text.Known c) (offset : Nat) : ∃ body, Cut offset cs body := by
  induction left : cs.length using Nat.strongRecOn generalizing cs offset with
  | _ n ih =>
  cases cs with
  | nil => exact ⟨[], .done offset⟩
  | cons c cs =>
    obtain ⟨first, later⟩ := List.forall_mem_cons.mp known
    rw [List.length_cons] at left
    cases space : Text.isGap c with
    | true =>
      obtain ⟨body, cut⟩ := ih cs.length (by omega) later (offset + c.utf8Size) rfl
      exact ⟨body, .gap space cut⟩
    | false =>
      obtain ⟨kind, more, rest, rfl, piece, stop⟩ := exists_piece first space cs
      have shorter : rest.length ≤ (more ++ rest).length := by simp
      obtain ⟨body, cut⟩ := ih rest.length (by omega) (List.forall_mem_append.mp later).2
        (offset + Text.byteLength (c :: more)) rfl
      exact ⟨_, .token piece stop cut⟩

theorem not_gap_of_unknown {c : Char} (unknown : ¬ Text.Known c) : Text.isGap c = false :=
  Bool.eq_false_iff.mpr fun space => unknown (.inr (.inr (.inr space)))

theorem leading_unknown {c : Char} (unknown : ¬ Text.Known c) (cs : List Char) : leading c cs = none := by
  simp only [Text.Known, not_or, List.mem_cons, List.not_mem_nil, or_false] at unknown
  simp [leading, unknown]

theorem scan_first_unknown {before after : List Char} {c : Char} (known : ∀ d ∈ before, Text.Known d)
    (unknown : ¬ Text.Known c) (offset : Nat) :
    scan offset (before ++ c :: after) [] =
      .error (.unknownToken c.toString (offset + Text.byteLength before)) := by
  have apart : ∀ d ∈ (c :: after).head?, ∀ kind : TokenKind, kind.grows d = false := by
    intro d first kind
    cases first
    exact Bool.eq_false_iff.mpr fun grows => unknown (TokenKind.known_of_grows grows)
  obtain ⟨body, cut⟩ := exists_cut known offset
  have lexed : Lexes offset before (c :: after) body (offset + Text.byteLength before) := cut.lexes apart
  unfold Lexes at lexed
  rw [lexed, scan_unknown _ (not_gap_of_unknown unknown) (leading_unknown unknown after)]
  rfl

theorem cut_of_scan {offset : Nat} {cs : List Char} {tokens : List Token}
    (h : scan offset cs [] = .ok tokens) :
    ∃ body, Cut offset cs body ∧ tokens = body ++ [finishAt (offset + Text.byteLength cs)] := by
  cases found : cs.find? fun c => !decide (Text.Known c) with
  | none =>
    have known : ∀ c ∈ cs, Text.Known c := by simpa using found
    obtain ⟨body, cut⟩ := exists_cut known offset
    exact ⟨body, cut, Except.ok.inj (h.symm.trans cut.scanned)⟩
  | some c =>
    obtain ⟨unknown, before, after, rfl, known⟩ := List.find?_eq_some_iff_append.mp found
    rw [scan_first_unknown (by simpa using known) (by simpa using unknown)] at h
    cases h

end Token
end Reckoner
