import Reckoner.Proofs.Token.Scan
import Reckoner.Text.Blank

namespace Reckoner
namespace Text

theorem digit_of_isDigit {c : Char} (h : isDigit c = true) : 48 ≤ c.toNat ∧ c.toNat ≤ 57 := by
  unfold isDigit at h
  rw [Bool.and_eq_true, decide_eq_true_eq, decide_eq_true_eq] at h
  exact h

theorem letter_of_isLetter {c : Char} (h : isLetter c = true) :
    (97 ≤ c.toNat ∧ c.toNat ≤ 122) ∨ (65 ≤ c.toNat ∧ c.toNat ≤ 90) := by
  unfold isLetter at h
  simp only [Bool.or_eq_true, Bool.and_eq_true, decide_eq_true_eq] at h
  exact h

theorem isDigit_of_isLetter {c : Char} (h : isLetter c = true) : isDigit c = false := by
  cases digit : isDigit c with
  | false => rfl
  | true =>
    have low := digit_of_isDigit digit
    have high := letter_of_isLetter h
    omega

theorem isBlank_of_visible {c : Char} (h : isDigit c = true ∨ isLetter c = true) :
    isBlank c = false := by
  have range : 33 ≤ c.toNat ∧ c.toNat ≤ 126 := by
    rcases h with digit | letter
    · have := digit_of_isDigit digit
      omega
    · have := letter_of_isLetter letter
      omega
  unfold isBlank
  rw [List.any_eq_false]
  intro block member
  simp only [blankRanges, List.mem_cons, List.not_mem_nil, or_false] at member
  rcases member with rfl | rfl | rfl | rfl | rfl | rfl | rfl | rfl | rfl | rfl <;> simp <;> omega

theorem isGap_of_visible {c : Char} (h : isDigit c = true ∨ isLetter c = true) : isGap c = false := by
  have visible := isBlank_of_visible h
  cases gap : isGap c with
  | false => rfl
  | true =>
    unfold isGap at gap
    simp only [Bool.or_eq_true, beq_iff_eq] at gap
    rcases gap with ((((rfl | rfl) | rfl) | rfl) | rfl) | rfl <;> exact absurd visible (by decide)

theorem allBlank_of_mem {s : String} {c : Char} (member : c ∈ s.toList) (visible : isBlank c = false) :
    allBlank s = false := by
  cases blank : allBlank s with
  | false => rfl
  | true =>
    have all := List.all_eq_true.mp blank c member
    exact absurd (visible.symm.trans all) Bool.false_ne_true

end Text

namespace Token

theorem leading_blank {c : Char} (blank : Text.isBlank c = true) (cs : List Char) : leading c cs = none := by
  cases begins : leading c cs with
  | none => rfl
  | some found =>
    have visible : Text.isBlank c = false := by
      rcases leading_eq_some begins with ⟨_, digit, _⟩ | ⟨_, letter, _⟩ | ⟨op, _, sign⟩ | ⟨_, sign⟩ | ⟨_, sign⟩
      · exact Text.isBlank_of_visible (.inl digit)
      · exact Text.isBlank_of_visible (.inr letter)
      · have signs : op.symbol.toList.all (fun d => !Text.isBlank d) = true := by cases op <;> decide
        have seen := List.all_eq_true.mp signs c (sign ▸ List.mem_cons_self)
        simpa using seen
      · rw [List.head_eq_of_cons_eq sign]
        decide
      · rw [List.head_eq_of_cons_eq sign]
        decide
    exact absurd (visible.symm.trans blank) Bool.false_ne_true

theorem scan_blank {cs : List Char} {offset : Nat} {tokens : List Token} (blank : cs.all Text.isBlank = true)
    (h : scan offset cs [] = .ok tokens) : ∃ stop, tokens = [finishAt stop] := by
  induction cs generalizing offset with
  | nil =>
    rw [scan_nil] at h
    exact ⟨offset, (Except.ok.inj h).symm⟩
  | cons c cs ih =>
    obtain ⟨first, later⟩ : Text.isBlank c = true ∧ cs.all Text.isBlank = true := by
      rwa [List.all_cons, Bool.and_eq_true] at blank
    cases gap : Text.isGap c with
    | true =>
      rw [scan_gap offset cs gap] at h
      exact ih later h
    | false =>
      rw [scan_unknown offset gap (leading_blank first cs)] at h
      cases h

theorem nonblank_of_tokens {source : String} {body : List Token} {stop : Nat}
    (scanned : tokenize source = .ok (body ++ [finishAt stop])) (nonempty : body ≠ []) :
    Text.allBlank source = false := by
  cases blank : Text.allBlank source with
  | false => rfl
  | true =>
    obtain ⟨_, only⟩ := scan_blank blank scanned
    have length := congrArg List.length only
    rw [List.length_append, List.length_singleton, List.length_singleton] at length
    exact absurd (List.length_eq_zero_iff.mp (Nat.succ.inj length)) nonempty

theorem takeWhile_stop {p : Char → Bool} {cs rest : List Char} (run : cs.all p = true)
    (stop : ∀ c ∈ rest.head?, p c = false) : (cs ++ rest).takeWhile p = cs := by
  have nothing : rest.takeWhile p = [] := by
    cases rest with
    | nil => rfl
    | cons c rest => rw [List.takeWhile_cons, stop c rfl]; rfl
  rw [List.takeWhile_append_of_pos (List.all_eq_true.mp run), nothing, List.append_nil]

/-- `cs` before `rest` is scanned to `body`, and scanning goes on from `next`. -/
def Lexes (offset : Nat) (cs rest : List Char) (body : List Token) (next : Nat) : Prop :=
  scan offset (cs ++ rest) [] = (scan next rest []).map (body ++ ·)

namespace Lexes

variable {offset mid next : Nat} {cs ds rest : List Char} {body more : List Token}

theorem append (first : Lexes offset cs (ds ++ rest) body mid) (second : Lexes mid ds rest more next) :
    Lexes offset (cs ++ ds) rest (body ++ more) next := by
  unfold Lexes at first second ⊢
  rw [List.append_assoc, first, second]
  cases scan next rest [] with
  | error cause => rfl
  | ok tokens => simp only [Except.map, List.append_assoc]

theorem tokens (h : Lexes offset cs [] body next) : scan offset cs [] = .ok (body ++ [finishAt next]) := by
  unfold Lexes at h
  rw [List.append_nil, scan_nil] at h
  exact h

theorem nil (offset : Nat) (rest : List Char) : Lexes offset [] rest [] offset := by
  unfold Lexes
  rw [List.nil_append]
  cases scan offset rest [] <;> rfl

theorem space (offset : Nat) (rest : List Char) :
    Lexes offset [' '] rest [] (offset + ' '.utf8Size) := by
  unfold Lexes
  rw [List.singleton_append, scan_gap offset rest (by decide)]
  cases scan (offset + ' '.utf8Size) rest [] <;> rfl

end Lexes

def Piece (kind : TokenKind) (text : String) (rest : List Char) : Prop :=
  ∀ offset, ∃ t next, t.kind = kind ∧ t.text = text ∧ Lexes offset text.toList rest [t] next

theorem piece_of_leading {kind : TokenKind} {text : String} {c : Char} {more rest : List Char}
    (chars : text.toList = c :: more) (gap : Text.isGap c = false)
    (begins : leading c (more ++ rest) = some (kind, more)) : Piece kind text rest := by
  intro offset
  have whole : String.ofList (c :: more) = text := by rw [← chars, String.ofList_toList]
  refine ⟨⟨kind, offset, offset + Text.byteLength (c :: more), text⟩,
    offset + Text.byteLength (c :: more), rfl, rfl, ?_⟩
  unfold Lexes
  rw [chars, List.cons_append, scan_token offset gap begins, List.drop_left, whole]
  rfl

def Apart (rest : List Char) : Prop :=
  ∀ c ∈ rest.head?, Text.isDigit c = false ∧ Text.isLetter c = false

theorem apart_nil : Apart [] := fun _ first => by cases first

theorem apart_space (rest : List Char) : Apart (' ' :: rest) := by
  intro c first
  cases first
  decide

theorem apart_closing (rest : List Char) : Apart (')' :: rest) := by
  intro c first
  cases first
  decide

theorem piece_number {text : String} {rest : List Char} (nonempty : text.toList ≠ [])
    (digits : text.toList.all Text.isDigit = true) (apart : Apart rest) :
    Piece .number text rest := by
  cases chars : text.toList with
  | nil => exact absurd chars nonempty
  | cons c more =>
    rw [chars, List.all_cons, Bool.and_eq_true] at digits
    have run := takeWhile_stop digits.2 fun d first => (apart d first).1
    apply piece_of_leading chars (Text.isGap_of_visible (.inl digits.1))
    unfold leading
    rw [if_pos digits.1, run]

theorem piece_word {text : String} {rest : List Char} (nonempty : text.toList ≠ [])
    (letters : text.toList.all Text.isLetter = true) (apart : Apart rest) :
    Piece (if text.toList = keyword then .root else .name) text rest := by
  cases chars : text.toList with
  | nil => exact absurd chars nonempty
  | cons c more =>
    rw [chars, List.all_cons, Bool.and_eq_true] at letters
    have run := takeWhile_stop letters.2 fun d first => (apart d first).2
    apply piece_of_leading chars (Text.isGap_of_visible (.inr letters.1))
    unfold leading
    rw [if_neg (by rw [Text.isDigit_of_isLetter letters.1]; decide), if_pos letters.1, run]

theorem piece_name {text : String} {rest : List Char} (nonempty : text.toList ≠ [])
    (letters : text.toList.all Text.isLetter = true) (other : text.toList ≠ keyword) (apart : Apart rest) :
    Piece .name text rest := by
  have word := piece_word nonempty letters apart
  rwa [if_neg other] at word

theorem piece_root {rest : List Char} (apart : Apart rest) : Piece .root "sqrt" rest := by
  have nonempty : "sqrt".toList ≠ [] := by decide
  have word := piece_word nonempty (by decide) apart
  rw [if_pos (by decide)] at word
  exact word

theorem piece_operator (op : Operator) (rest : List Char) :
    Piece (.operator op) op.symbol (' ' :: rest) := by
  cases op with
  | pow => exact piece_of_leading rfl (by decide) rfl
  | _ => exact piece_of_leading rfl (by decide) rfl

theorem piece_opening (rest : List Char) : Piece .opening "(" rest :=
  piece_of_leading rfl (by decide) rfl

theorem piece_closing (rest : List Char) : Piece .closing ")" rest :=
  piece_of_leading rfl (by decide) rfl

end Token
end Reckoner
