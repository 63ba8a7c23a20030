import Reckoner.Token.Scan

namespace Reckoner
namespace Token

theorem scan_append (offset : Nat) (cs : List Char) (found base : List Token) :
    scan offset cs (found ++ base) = (scan offset cs found).map (base.reverse ++ ·) := by
  induction offset, cs, found using scan.induct with
  | case1 offset found =>
    rw [scan, scan]
    simp only [Except.map, List.reverse_cons, List.reverse_append, List.append_assoc]
  | case2 offset c cs found gap ih =>
    rw [scan, scan, if_pos gap, if_pos gap]
    exact ih
  | case3 offset c cs found gap unknown =>
    rw [scan, scan, if_neg gap, if_neg gap, unknown]
    rfl
  | case4 offset c cs found gap kind more begins stop ih =>
    rw [scan, scan, if_neg gap, if_neg gap, begins]
    exact ih

theorem scan_nil (offset : Nat) : scan offset [] [] = .ok [finishAt offset] := by
  rw [scan]
  rfl

theorem scan_gap (offset : Nat) {c : Char} (cs : List Char) (gap : Text.isGap c = true) :
    scan offset (c :: cs) [] = scan (offset + c.utf8Size) cs [] := by
  rw [scan, if_pos gap]

theorem scan_unknown (offset : Nat) {c : Char} {cs : List Char} (gap : Text.isGap c = false)
    (unknown : leading c cs = none) :
    scan offset (c :: cs) [] = .error (.unknownToken c.toString offset) := by
  rw [scan, gap, unknown]
  rfl

theorem scan_token (offset : Nat) {c : Char} {cs more : List Char} {kind : TokenKind}
    (gap : Text.isGap c = false) (begins : leading c cs = some (kind, more)) :
    scan offset (c :: cs) [] =
      (scan (offset + Text.byteLength (c :: more)) (cs.drop more.length) []).map
        (⟨kind, offset, offset + Text.byteLength (c :: more), String.ofList (c :: more)⟩ :: ·) := by
  rw [scan, gap, begins]
  exact scan_append _ _ [] [_]

theorem leading_eq_some {c : Char} {cs more : List Char} {kind : TokenKind}
    (h : leading c cs = some (kind, more)) :
    (kind = .number ∧ Text.isDigit c = true ∧ more = cs.takeWhile Text.isDigit) ∨
      (kind = (if c :: more = keyword then .root else .name) ∧ Text.isLetter c = true ∧
        more = cs.takeWhile Text.isLetter) ∨
      (∃ op, kind = .operator op ∧ c :: more = op.symbol.toList) ∨
      (kind = .opening ∧ c :: more = ['(']) ∨ (kind = .closing ∧ c :: more = [')']) := by
  unfold leading at h
  split at h
  · next digit => cases h; exact .inl ⟨rfl, digit, rfl⟩
  right
  split at h
  · next letter => cases h; exact .inl ⟨rfl, letter, rfl⟩
  right
  split at h
  · next star =>
    subst star
    left
    split at h
    · cases h; exact ⟨.pow, rfl, rfl⟩
    · cases h; exact ⟨.mul, rfl, rfl⟩
  split at h
  · next sign => cases h; exact .inl ⟨.add, rfl, congrArg (· :: []) sign⟩
  split at h
  · next sign => cases h; exact .inl ⟨.sub, rfl, congrArg (· :: []) sign⟩
  split at h
  · next sign => cases h; exact .inl ⟨.div, rfl, congrArg (· :: []) sign⟩
  split at h
  · next sign => cases h; exact .inl ⟨.rem, rfl, congrArg (· :: []) sign⟩
  right
  split at h
  · next sign => cases h; exact .inl ⟨rfl, congrArg (· :: []) sign⟩
  right
  split at h
  · next sign => cases h; exact ⟨rfl, congrArg (· :: []) sign⟩
  · cases h

def Scanned (t : Token) : Prop :=
  ∃ c cs more, leading c cs = some (t.kind, more) ∧ t.text = String.ofList (c :: more)

theorem scan_split {offset : Nat} {cs : List Char} {tokens : List Token}
    (h : scan offset cs [] = .ok tokens) :
    ∃ body stop, tokens = body ++ [finishAt stop] ∧ ∀ t ∈ body, t.Scanned := by
  induction hn : cs.length using Nat.strongRecOn generalizing offset cs tokens with
  | _ n ih =>
  cases cs with
  | nil =>
    rw [scan_nil] at h
    cases h
    exact ⟨[], offset, rfl, fun _ member => by cases member⟩
  | cons c cs =>
    rw [List.length_cons] at hn
    cases gap : Text.isGap c with
    | true =>
      rw [scan_gap offset cs gap] at h
      exact ih cs.length (by omega) h rfl
    | false =>
      cases begins : leading c cs with
      | none =>
        rw [scan_unknown offset gap begins] at h
        cases h
      | some found =>
        rw [scan_token offset gap begins] at h
        have shorter : (cs.drop found.2.length).length ≤ cs.length := by
          rw [List.length_drop]; exact Nat.sub_le _ _
        cases later : scan (offset + Text.byteLength (c :: found.2)) (cs.drop found.2.length) [] with
        | error e => rw [later] at h; cases h
        | ok tokens =>
          rw [later] at h
          cases h
          obtain ⟨body, stop, rfl, scanned⟩ := ih _ (by omega) later rfl
          refine ⟨_ :: body, stop, rfl, ?_⟩
          intro t member
          rcases List.mem_cons.mp member with rfl | member
          · exact ⟨c, cs, found.2, begins, rfl⟩
          · exact scanned t member

theorem tokenize_split {source : String} {tokens : List Token} (h : tokenize source = .ok tokens) :
    ∃ body stop, tokens = body ++ [finishAt stop] ∧ ∀ t ∈ body, t.Scanned :=
  scan_split h

theorem scan_eq_error {offset : Nat} {cs : List Char} {found : List Token} {e : ParseError}
    (h : scan offset cs found = .error e) : ∃ text place, e = .unknownToken text place := by
  induction offset, cs, found using scan.induct with
  | case1 offset found => rw [scan] at h; cases h
  | case2 offset c cs found gap ih => rw [scan, if_pos gap] at h; exact ih h
  | case3 offset c cs found gap unknown =>
    rw [scan, if_neg gap, unknown] at h
    cases h
    exact ⟨_, _, rfl⟩
  | case4 offset c cs found gap kind more begins stop ih =>
    rw [scan, if_neg gap, begins] at h
    exact ih h

theorem Scanned.kind_ne {t : Token} (h : t.Scanned) : t.kind ≠ .finish := by
  obtain ⟨c, cs, more, begins, _⟩ := h
  rcases leading_eq_some begins with ⟨kind, _⟩ | ⟨kind, _⟩ | ⟨op, kind, _⟩ | ⟨kind, _⟩ | ⟨kind, _⟩ <;>
    rw [kind]
  · decide
  · split <;> decide
  · exact TokenKind.noConfusion
  · decide
  · decide

theorem Scanned.digits {t : Token} (h : t.Scanned) (number : t.kind = .number) :
    t.text.toList ≠ [] ∧ t.text.toList.all Text.isDigit = true := by
  obtain ⟨c, cs, more, begins, text⟩ := h
  rw [number] at begins
  rcases leading_eq_some begins with ⟨_, digit, rfl⟩ | ⟨kind, _⟩ | ⟨op, kind, _⟩ | ⟨kind, _⟩ | ⟨kind, _⟩
  · rw [text, String.toList_ofList, List.all_cons, digit, List.all_takeWhile]
    exact ⟨List.cons_ne_nil _ _, rfl⟩
  · split at kind <;> cases kind
  · cases kind
  · cases kind
  · cases kind

theorem Scanned.letters {t : Token} (h : t.Scanned) (name : t.kind = .name) :
    t.text.toList ≠ [] ∧ t.text.toList.all Text.isLetter = true ∧ t.text.toList ≠ keyword := by
  obtain ⟨c, cs, more, begins, text⟩ := h
  rw [name] at begins
  rcases leading_eq_some begins with ⟨kind, _⟩ | ⟨kind, letter, rfl⟩ | ⟨op, kind, _⟩ | ⟨kind, _⟩ | ⟨kind, _⟩
  · cases kind
  · rw [text, String.toList_ofList, List.all_cons, letter, List.all_takeWhile]
    refine ⟨List.cons_ne_nil _ _, rfl, fun word => ?_⟩
    rw [if_pos word] at kind
    cases kind
  · cases kind
  · cases kind
  · cases kind

end Token
end Reckoner
