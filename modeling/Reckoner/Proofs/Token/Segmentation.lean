import Mathlib.Data.List.TakeWhile
import Reckoner.Proofs.Token.Cut

/-! The tokens of a text as a segmentation of it: each stands where it says and could not be
longer, no two overlap, nothing but gaps is left between them, and a run of stars is split
into pairs from the left. A text that can be segmented at all has one segmentation, and
that is what the scan finds. -/
namespace Reckoner
namespace Text

theorem eq_nil_of_byteLength {cs : List Char} (h : byteLength cs = 0) : cs = [] := by
  cases cs with
  | nil => rfl
  | cons c cs =>
    have positive := c.utf8Size_pos
    rw [byteLength_cons] at h
    omega

theorem byteLength_toList (s : String) : byteLength s.toList = s.utf8ByteSize := by
  have each (cs : List Char) : byteLength cs = (String.ofList cs).utf8ByteSize := by
    induction cs with
    | nil => rfl
    | cons c cs ih =>
      rw [byteLength_cons, ih, ← List.singleton_append, String.ofList_append, String.utf8ByteSize_append]
      simp
  rw [each, String.ofList_toList]

theorem splitAtByte_append (before rest : List Char) :
    splitAtByte (byteLength before) (before ++ rest) = some (before, rest) := by
  induction before with
  | nil => cases rest <;> simp [splitAtByte]
  | cons c before ih =>
    have positive : c.utf8Size ≠ 0 := Nat.ne_of_gt c.utf8Size_pos
    simp [splitAtByte, ih, positive]

theorem slice_append {source : String} {before piece after : List Char}
    (h : source.toList = before ++ (piece ++ after)) :
    slice source (byteLength before) (byteLength before + byteLength piece) = String.ofList piece := by
  simp [slice, slice?, h, splitAtByte_append]

theorem exists_between {before x w rest : List Char} (same : before ++ x = w ++ rest)
    (le : byteLength w ≤ byteLength before) : ∃ b, before = w ++ b ∧ rest = b ++ x := by
  rcases List.append_eq_append_iff.mp same with ⟨a, rfl, rfl⟩ | ⟨b, rfl, rfl⟩
  · rw [byteLength_append] at le
    obtain rfl := eq_nil_of_byteLength (show byteLength a = 0 by omega)
    exact ⟨[], by simp⟩
  · exact ⟨b, rfl, rfl⟩

theorem append_cons_cases {before after w rest : List Char} {c : Char}
    (same : w ++ rest = before ++ c :: after) :
    (∃ a, w = before ++ c :: a) ∨ ∃ b, before = w ++ b ∧ rest = b ++ c :: after := by
  rcases List.append_eq_append_iff.mp same with ⟨b, rfl, rfl⟩ | ⟨a, rfl, second⟩
  · exact .inr ⟨b, rfl, rfl⟩
  · rcases List.cons_eq_append_iff.mp second with ⟨rfl, rfl⟩ | ⟨a, rfl, rfl⟩
    · exact .inr ⟨[], by simp⟩
    · exact .inl ⟨a, rfl⟩

theorem last_of_append (w : List Char) {cs : List Char} {c : Char} (h : (w ++ cs).getLast? ≠ some c) :
    cs.getLast? ≠ some c := by
  intro last
  exact h (by rw [List.getLast?_append, last]; rfl)

theorem exists_stars (cs : List Char) :
    ∃ n after, cs = List.replicate n '*' ++ after ∧ after.head? ≠ some '*' := by
  induction cs with
  | nil => exact ⟨0, [], rfl, by simp⟩
  | cons c cs ih =>
    by_cases star : c = '*'
    · obtain ⟨n, after, rfl, stop⟩ := ih
      exact ⟨n + 1, after, by rw [star, List.replicate_succ]; rfl, stop⟩
    · exact ⟨0, c :: cs, rfl, by simpa using star⟩

end Text

namespace Token

/-- The tokens of `n` stars: `n / 2` pairs, then the last star if `n` is odd. -/
def stars (offset n : Nat) : List Token :=
  ((List.range (n / 2)).map fun i => spanning (.operator .pow) (offset + 2 * i) ['*', '*']) ++
    if n % 2 = 1 then [spanning (.operator .mul) (offset + (n - 1)) ['*']] else []

/-- `t` covers a piece of `cs` that belongs to its kind, and nothing beside the piece does. -/
def Stands (offset : Nat) (cs : List Char) (t : Token) : Prop :=
  ∃ before piece after, cs = before ++ (piece ++ after) ∧
    t = spanning t.kind (offset + Text.byteLength before) piece ∧ t.kind.Matches piece ∧
    (∀ c ∈ before.getLast?, t.kind.joins c = false) ∧ ∀ c ∈ after.head?, t.kind.joins c = false

/-- The tokens of `cs`, whose first byte stands at `offset`. -/
structure Segmentation (offset : Nat) (cs : List Char) (body : List Token) : Prop where
  stands : ∀ t ∈ body, t.Stands offset cs
  ordered : body.Pairwise fun a b => a.stop ≤ b.start
  gaps : ∀ before c after, cs = before ++ c :: after → Text.isGap c = true ∨
    ∃ t ∈ body, t.start ≤ offset + Text.byteLength before ∧ offset + Text.byteLength before < t.stop
  runs : ∀ before n after, cs = before ++ (List.replicate n '*' ++ after) →
    before.getLast? ≠ some '*' → after.head? ≠ some '*' →
    stars (offset + Text.byteLength before) n <:+: body

theorem stars_add_two (offset n : Nat) :
    stars offset (n + 2) = spanning (.operator .pow) offset ['*', '*'] :: stars (offset + 2) n := by
  have half : (n + 2) / 2 = n / 2 + 1 := by omega
  have odd : (n + 2) % 2 = n % 2 := by omega
  have pair (i : Nat) : offset + 2 * (i + 1) = offset + 2 + 2 * i := by omega
  unfold stars
  rcases Nat.mod_two_eq_zero_or_one n with even | left
  · simp [half, odd, even, List.range_succ_eq_map, Function.comp_def, pair]
  · have last : offset + (n + 2 - 1) = offset + 2 + (n - 1) := by omega
    simp only [half, odd, left, if_true, List.range_succ_eq_map, List.map_cons, List.map_map,
      Function.comp_def, pair, last]
    rfl

theorem le_start_of_mem_stars {offset n : Nat} {t : Token} (h : t ∈ stars offset n) :
    offset ≤ t.start := by
  unfold stars at h
  rcases List.mem_append.mp h with pair | last
  · obtain ⟨i, _, rfl⟩ := List.mem_map.mp pair
    exact Nat.le_add_right _ _
  · split at last
    · cases List.mem_singleton.mp last
      exact Nat.le_add_right _ _
    · cases last

theorem Stands.offset_le {t : Token} {offset : Nat} {cs : List Char} (h : t.Stands offset cs) :
    offset ≤ t.start ∧ t.start < t.stop := by
  obtain ⟨before, piece, after, rfl, place, matched, _⟩ := h
  rw [place]
  refine ⟨Nat.le_add_right _ _, Nat.lt_add_of_pos_right (Nat.pos_of_ne_zero ?_)⟩
  exact fun empty => matched.ne_nil (Text.eq_nil_of_byteLength empty)

theorem Stands.stop_le {t : Token} {offset : Nat} {cs : List Char} (h : t.Stands offset cs) :
    t.stop ≤ offset + Text.byteLength cs := by
  obtain ⟨before, piece, after, rfl, place, _⟩ := h
  have stop : t.stop = offset + Text.byteLength before + Text.byteLength piece := congrArg Token.stop place
  simp only [Text.byteLength_append]
  omega

end Token

namespace TokenKind

variable {kind other : TokenKind} {piece : List Char} {c : Char}

theorem sort_of_joins (joined : other.joins c = true) :
    (other.joins = Text.isDigit ∧ Text.isDigit c = true) ∨
      (other.joins = Text.isLetter ∧ Text.isLetter c = true) := by
  cases other with
  | number => exact .inl ⟨rfl, joined⟩
  | name => exact .inr ⟨rfl, joined⟩
  | root => exact .inr ⟨rfl, joined⟩
  | _ => cases joined

theorem joins_gap (gap : Text.isGap c = true) : kind.joins c = false := by
  cases joined : kind.joins c with
  | false => rfl
  | true =>
    have visible := Text.isGap_of_visible ((sort_of_joins joined).imp And.right And.right)
    exact absurd gap (Bool.eq_false_iff.mp visible)

theorem Matches.sort (h : kind.Matches piece) (member : c ∈ piece) :
    (kind.joins = Text.isDigit ∧ Text.isDigit c = true) ∨
      (kind.joins = Text.isLetter ∧ Text.isLetter c = true) ∨
        (Text.isDigit c = false ∧ Text.isLetter c = false) := by
  cases kind with
  | number => exact .inl ⟨rfl, h.2 c member⟩
  | name => exact .inr (.inl ⟨rfl, h.letters (.inl rfl) c member⟩)
  | root => exact .inr (.inl ⟨rfl, h.letters (.inr rfl) c member⟩)
  | operator op =>
    cases h
    right; right
    cases op <;> simp_all [Operator.symbol] <;> decide
  | opening =>
    cases h
    cases List.mem_singleton.mp member
    exact .inr (.inr (by decide))
  | closing =>
    cases h
    cases List.mem_singleton.mp member
    exact .inr (.inr (by decide))
  | finish => cases h

theorem Matches.joins_eq (h : kind.Matches piece) (member : c ∈ piece) (joined : other.joins c = true) :
    kind.joins = other.joins := by
  rcases sort_of_joins joined with ⟨digits, digit⟩ | ⟨letters, letter⟩ <;>
    rcases h.sort member with ⟨joins, digit'⟩ | ⟨joins, letter'⟩ | ⟨other, other'⟩
  · rw [joins, digits]
  · rw [Text.isDigit_of_isLetter letter'] at digit
    cases digit
  · rw [digit] at other
    cases other
  · rw [Text.isDigit_of_isLetter letter] at digit'
    cases digit'
  · rw [joins, letters]
  · rw [letter] at other'
    cases other'

theorem Matches.joins_of_mem (h : kind.Matches piece) (joined : kind.joins c = true) :
    ∀ d ∈ piece, kind.joins d = true := by
  cases kind with
  | number => exact h.2
  | name => exact h.letters (.inl rfl)
  | root => exact h.letters (.inr rfl)
  | _ => cases joined

theorem Matches.apart {next after : List Char} (h : kind.Matches piece)
    (stop : ∀ d ∈ (next ++ after).head?, kind.grows d = false) (h' : other.Matches next) :
    ∀ d ∈ piece.getLast?, other.joins d = false := by
  intro d last
  cases joined : other.joins d with
  | false => rfl
  | true =>
    have same := h.joins_eq (List.mem_of_getLast? last) joined
    obtain ⟨c, more, rfl⟩ := List.exists_cons_of_ne_nil h'.ne_nil
    have first := h'.joins_of_mem joined c List.mem_cons_self
    have stops := stop c rfl
    rw [grows, same, first] at stops
    cases stops

theorem Matches.of_star (h : kind.Matches piece) (star : '*' ∈ piece) :
    (kind = .operator .mul ∧ piece = ['*']) ∨ (kind = .operator .pow ∧ piece = ['*', '*']) := by
  cases kind with
  | number => exact absurd (h.2 '*' star) (by decide)
  | name => exact absurd (h.2.1 '*' star) (by decide)
  | root => exact absurd (h.letters (.inr rfl) '*' star) (by decide)
  | operator op =>
    cases h
    cases op with
    | mul => exact .inl ⟨rfl, rfl⟩
    | pow => exact .inr ⟨rfl, rfl⟩
    | _ => exact absurd star (by decide)
  | opening => cases h; exact absurd star (by decide)
  | closing => cases h; exact absurd star (by decide)
  | finish => cases h

end TokenKind

namespace Token

variable {offset : Nat} {cs w rest : List Char} {body : List Token} {t : Token}

theorem Stands.behind (h : t.Stands (offset + Text.byteLength w) rest)
    (beside : ∀ piece after, rest = piece ++ after → t.kind.Matches piece →
      ∀ c ∈ w.getLast?, t.kind.joins c = false) : t.Stands offset (w ++ rest) := by
  obtain ⟨before, piece, after, rfl, place, matched, left, right⟩ := h
  refine ⟨w ++ before, piece, after, by simp, ?_, matched, ?_, right⟩
  · rw [place, Text.byteLength_append, Nat.add_assoc]
    rfl
  · cases before with
    | nil =>
      rw [List.append_nil]
      exact beside piece after rfl matched
    | cons c before =>
      rw [List.getLast?_cons] at left
      rw [List.getLast?_append, List.getLast?_cons]
      exact left

namespace Cut

theorem stands (h : Cut offset cs body) : ∀ t ∈ body, t.Stands offset cs := by
  induction h with
  | done => exact fun _ member => absurd member List.not_mem_nil
  | @gap offset c cs body space _ ih =>
    intro t member
    refine Stands.behind (w := [c]) (ih t member) fun _ _ _ _ d last => ?_
    cases last
    exact TokenKind.joins_gap space
  | @token offset kind piece rest body matched stop _ ih =>
    intro t member
    rcases List.mem_cons.mp member with rfl | later
    · refine ⟨[], piece, rest, rfl, rfl, matched, ?_, ?_⟩
      · exact fun _ last => by cases last
      · exact fun d first => (Bool.or_eq_false_iff.mp (stop d first)).1
    · refine (ih t later).behind fun next after same matched' => ?_
      subst same
      exact matched.apart stop matched'

theorem ordered (h : Cut offset cs body) : body.Pairwise fun a b => a.stop ≤ b.start := by
  induction h with
  | done => exact .nil
  | gap _ _ ih => exact ih
  | token _ _ cut ih => exact .cons (fun t member => (cut.stands t member).offset_le.1) ih

theorem gaps (h : Cut offset cs body) {before after : List Char} {c : Char}
    (same : cs = before ++ c :: after) : Text.isGap c = true ∨
    ∃ t ∈ body, t.start ≤ offset + Text.byteLength before ∧ offset + Text.byteLength before < t.stop := by
  induction h generalizing before with
  | done => simp at same
  | @gap offset d cs body space _ ih =>
    rcases List.cons_eq_append_iff.mp same with ⟨rfl, first⟩ | ⟨before, rfl, later⟩
    · cases first
      exact .inl space
    · rw [Text.byteLength_cons, ← Nat.add_assoc]
      exact ih later
  | @token offset kind piece rest body matched _ _ ih =>
    rcases Text.append_cons_cases same with ⟨a, rfl⟩ | ⟨before, rfl, later⟩
    · refine .inr ⟨_, List.mem_cons_self, Nat.le_add_right _ _, ?_⟩
      have positive := c.utf8Size_pos
      simp only [spanning, Text.byteLength_append, Text.byteLength_cons]
      omega
    · rw [Text.byteLength_append, ← Nat.add_assoc]
      rcases ih later with space | ⟨t, member, covers⟩
      · exact .inl space
      · exact .inr ⟨t, List.mem_cons_of_mem _ member, covers⟩

theorem first_run (h : Cut offset cs body) {n : Nat} {after : List Char}
    (same : cs = List.replicate n '*' ++ after) (stop : after.head? ≠ some '*') :
    stars offset n <+: body := by
  induction h generalizing n with
  | done =>
    obtain ⟨rfl, _⟩ : n = 0 ∧ after = [] := by simpa using same
    exact List.nil_prefix
  | gap space =>
    cases n with
    | zero => exact List.nil_prefix
    | succ n =>
      obtain ⟨rfl, _⟩ := List.cons.inj same
      exact absurd space (by decide)
  | @token offset kind piece rest body matched alone _ ih =>
    cases n with
    | zero => exact List.nil_prefix
    | succ n =>
      obtain ⟨c, more, rfl⟩ := List.exists_cons_of_ne_nil matched.ne_nil
      obtain ⟨rfl, left⟩ := List.cons.inj same
      rcases matched.of_star List.mem_cons_self with ⟨rfl, single⟩ | ⟨rfl, pair⟩
      · obtain rfl := (List.cons.inj single).2
        cases n with
        | zero => exact (List.prefix_cons_inj _).mpr List.nil_prefix
        | succ n =>
          have next : rest = '*' :: (List.replicate n '*' ++ after) := left
          exact absurd (alone '*' (by rw [next]; rfl)) (by decide)
      · obtain rfl := (List.cons.inj pair).2
        cases n with
        | zero =>
          have next : '*' :: rest = after := left
          exact absurd (by rw [← next]; rfl) stop
        | succ n =>
          obtain ⟨_, later⟩ := List.cons.inj left
          rw [stars_add_two]
          exact (List.prefix_cons_inj _).mpr (ih later)

theorem runs (h : Cut offset cs body) {before after : List Char} {n : Nat}
    (same : cs = before ++ (List.replicate n '*' ++ after)) (start : before.getLast? ≠ some '*')
    (stop : after.head? ≠ some '*') : stars (offset + Text.byteLength before) n <:+: body := by
  cases n with
  | zero => exact List.nil_infix
  | succ n =>
  induction h generalizing before with
  | done => simp at same
  | @gap offset d cs body space cut ih =>
    rcases List.cons_eq_append_iff.mp same with ⟨rfl, first⟩ | ⟨before, rfl, later⟩
    · obtain ⟨rfl, _⟩ := List.cons.inj first
      exact absurd space (by decide)
    · rw [Text.byteLength_cons, ← Nat.add_assoc]
      exact ih (Text.last_of_append [d] start) later
  | @token offset kind piece rest body matched alone cut ih =>
    rcases Text.append_cons_cases same with ⟨a, here⟩ | ⟨before, rfl, later⟩
    · -- the run begins inside this piece, so it begins with it
      have star : '*' ∈ piece := here ▸ List.mem_append_right _ List.mem_cons_self
      have only : ∀ d ∈ piece, d = '*' := by
        rcases matched.of_star star with ⟨_, rfl⟩ | ⟨_, rfl⟩ <;> simp
      have empty : before = [] := by
        cases last : before.getLast? with
        | none => exact List.getLast?_eq_none_iff.mp last
        | some d =>
          have inside : d ∈ piece := here ▸ List.mem_append_left _ (List.mem_of_getLast? last)
          exact absurd (only d inside ▸ last) start
      subst empty
      exact ((Cut.token matched alone cut).first_run same stop).isInfix
    · rw [Text.byteLength_append, ← Nat.add_assoc]
      exact (ih (Text.last_of_append piece start) later).trans (List.suffix_cons _ _).isInfix

end Cut

namespace Segmentation

theorem of_cut (h : Cut offset cs body) : Segmentation offset cs body :=
  ⟨h.stands, h.ordered, fun _ _ _ same => h.gaps same, fun _ _ _ same start stop => h.runs same start stop⟩

theorem exists_first {c : Char} (h : Segmentation offset (c :: cs) body) (gap : Text.isGap c = false) :
    ∃ kind piece rest later, c :: cs = piece ++ rest ∧ body = spanning kind offset piece :: later ∧
      kind.Matches piece ∧ ∀ d ∈ rest.head?, kind.joins d = false := by
  rcases h.gaps [] c cs rfl with space | ⟨t, member, here, _⟩
  · rw [gap] at space
    cases space
  rw [Text.byteLength_nil, Nat.add_zero] at here
  obtain ⟨before, piece, rest, same, place, matched, _, right⟩ := h.stands t member
  have front : before = [] := by
    have start : t.start = offset + Text.byteLength before := congrArg Token.start place
    exact Text.eq_nil_of_byteLength (by omega)
  subst front
  refine ⟨t.kind, piece, rest, body.tail, same, ?_, matched, right⟩
  cases body with
  | nil => cases member
  | cons s later =>
    have first : t = s := by
      rcases List.mem_cons.mp member with same | behind
      · exact same
      · -- a token before this one would end before the text begins
        have ends := (List.pairwise_cons.mp h.ordered).1 t behind
        have begins := (h.stands s List.mem_cons_self).offset_le
        omega
    subst first
    exact congrArg (· :: later) place

theorem infix_of_append {found later run : List Token} (h : run <:+: found ++ later)
    (apart : ∀ t ∈ run, t ∉ found) : run <:+: later := by
  induction found with
  | nil => exact h
  | cons s found ih =>
    rcases List.infix_cons_iff.mp h with front | behind
    · cases run with
      | nil => exact List.nil_infix
      | cons t run =>
        obtain rfl : t = s := (List.cons_prefix_cons.mp front).1
        exact absurd List.mem_cons_self (apart t List.mem_cons_self)
    · exact ih behind fun t member => List.not_mem_of_not_mem_cons (apart t member)

theorem behind {found later : List Token} (h : Segmentation offset (w ++ rest) (found ++ later))
    (ends : ∀ t ∈ found, t.stop ≤ offset + Text.byteLength w)
    (begins : ∀ t ∈ later, offset + Text.byteLength w ≤ t.start)
    (run : w.getLast? = some '*' → ∀ n after, rest = List.replicate n '*' ++ after →
      after.head? ≠ some '*' → stars (offset + Text.byteLength w) n <:+: later) :
    Segmentation (offset + Text.byteLength w) rest later where
  stands t member := by
    obtain ⟨before, piece, after, same, place, matched, left, right⟩ :=
      h.stands t (List.mem_append_right _ member)
    have start : t.start = offset + Text.byteLength before := congrArg Token.start place
    have later := begins t member
    obtain ⟨b, rfl, rest⟩ := Text.exists_between same.symm (by omega)
    refine ⟨b, piece, after, rest, ?_, matched, ?_, right⟩
    · rw [Nat.add_assoc, ← Text.byteLength_append]
      exact place
    · intro c last
      exact left c (by rw [List.getLast?_append, Option.mem_def.mp last]; rfl)
  ordered := (List.pairwise_append.mp h.ordered).2.1
  gaps before c after same := by
    rcases h.gaps (w ++ before) c after (by rw [same, List.append_assoc]) with space | ⟨t, member, covers⟩
    · exact .inl space
    · rw [Text.byteLength_append, ← Nat.add_assoc] at covers
      rcases List.mem_append.mp member with early | late
      · have passed := ends t early
        omega
      · exact .inr ⟨t, late, covers⟩
  runs before n after same start stop := by
    cases joined : decide ((w ++ before).getLast? = some '*') with
    | true =>
      have star := of_decide_eq_true joined
      rw [List.getLast?_append] at star
      cases last : before.getLast? with
      | none =>
        obtain rfl := List.getLast?_eq_none_iff.mp last
        exact run star n after same stop
      | some d =>
        rw [last] at star start
        exact absurd star start
    | false =>
      have whole := h.runs (w ++ before) n after (by rw [same, List.append_assoc])
        (of_decide_eq_false joined) stop
      rw [Text.byteLength_append, ← Nat.add_assoc] at whole
      refine infix_of_append whole fun t member early => ?_
      have inside := le_start_of_mem_stars member
      have passed := ends t early
      have width := (h.stands t (List.mem_append_left _ early)).offset_le
      omega

theorem alone {kind : TokenKind} {piece : List Char} {later : List Token}
    (h : Segmentation offset (piece ++ rest) (spanning kind offset piece :: later))
    (matched : kind.Matches piece) (apart : ∀ d ∈ rest.head?, kind.joins d = false) :
    ∀ d ∈ rest.head?, kind.grows d = false := by
  -- a product sign is followed by no star, since the first two stars of a run are one token
  intro d first
  by_cases double : kind = .operator .mul ∧ d = '*'
  · obtain ⟨rfl, rfl⟩ := double
    have sign : piece = ['*'] := matched
    subst sign
    obtain ⟨more, rfl⟩ := List.head?_eq_some_iff.mp first
    obtain ⟨n, after, rfl, stop⟩ := Text.exists_stars more
    have run := h.runs [] (n + 2) after rfl (by simp) stop
    rw [stars_add_two] at run
    rcases List.mem_cons.mp (run.subset List.mem_cons_self) with same | late
    · cases congrArg Token.kind same
    · -- the pair would begin behind the first star
      have behind : offset + 1 ≤ offset := (List.pairwise_cons.mp h.ordered).1 _ late
      omega
  · simp only [TokenKind.grows, apart d first, Bool.false_or]
    simpa using double

theorem behind_gap {c : Char} (h : Segmentation offset (c :: cs) body) (space : Text.isGap c = true) :
    Segmentation (offset + c.utf8Size) cs body := by
  have whole : Segmentation offset ([c] ++ cs) ([] ++ body) := h
  refine whole.behind (fun _ member => by cases member) ?_ ?_
  · intro t member
    obtain ⟨before, piece, after, same, place, matched, _⟩ := h.stands t member
    cases before with
    | nil =>
      -- no piece begins with a gap
      obtain ⟨d, more, rfl⟩ := List.exists_cons_of_ne_nil matched.ne_nil
      obtain ⟨rfl, _⟩ := List.cons.inj same
      exact absurd space (Bool.eq_false_iff.mp (matched.known c List.mem_cons_self).2)
    | cons d before =>
      obtain ⟨rfl, _⟩ := List.cons.inj same
      have start : t.start = offset + Text.byteLength (c :: before) := congrArg Token.start place
      simp only [Text.byteLength_cons, Text.byteLength_nil] at start ⊢
      omega
  · intro star
    cases star
    cases space

theorem behind_first {kind : TokenKind} {piece : List Char} {later : List Token}
    (h : Segmentation offset (piece ++ rest) (spanning kind offset piece :: later))
    (matched : kind.Matches piece) (stop : ∀ d ∈ rest.head?, kind.grows d = false) :
    Segmentation (offset + Text.byteLength piece) rest later := by
  have whole : Segmentation offset (piece ++ rest) ([spanning kind offset piece] ++ later) := h
  refine whole.behind ?_ (List.pairwise_cons.mp h.ordered).1 ?_
  · exact List.forall_mem_singleton.mpr (Nat.le_refl _)
  · -- the rest of the run that the piece begins, if it is a pair of stars
    intro last n after run apart
    rcases matched.of_star (List.mem_of_getLast? last) with ⟨rfl, rfl⟩ | ⟨rfl, rfl⟩
    · cases n with
      | zero => exact List.nil_infix
      | succ n => exact absurd (stop '*' (by rw [run]; rfl)) (by decide)
    · have run' := h.runs [] (n + 2) after (by rw [run]; rfl) (by simp) apart
      rw [stars_add_two] at run'
      rcases List.infix_cons_iff.mp run' with front | back
      · exact (List.cons_prefix_cons.mp front).2.isInfix
      · exact (List.suffix_cons _ _).isInfix.trans back

theorem cut (h : Segmentation offset cs body) : Cut offset cs body := by
  induction left : cs.length using Nat.strongRecOn generalizing offset cs body with
  | _ n ih =>
  cases cs with
  | nil =>
    cases body with
    | nil => exact .done offset
    | cons t body =>
      obtain ⟨before, piece, after, empty, _, matched, _⟩ := h.stands t List.mem_cons_self
      have nothing := (List.append_eq_nil_iff.mp (List.append_eq_nil_iff.mp empty.symm).2).1
      exact absurd nothing matched.ne_nil
  | cons c cs =>
    cases space : Text.isGap c with
    | true =>
      have fewer : cs.length < n := left ▸ Nat.lt_succ_self _
      exact .gap space (ih _ fewer (h.behind_gap space) rfl)
    | false =>
      obtain ⟨kind, piece, rest, later, same, rfl, matched, apart⟩ := h.exists_first space
      rw [same] at h left ⊢
      have fewer : rest.length < n := by
        have width := List.length_pos_iff.mpr matched.ne_nil
        rw [List.length_append] at left
        omega
      have stop := h.alone matched apart
      exact .token matched stop (ih _ fewer (h.behind_first matched stop) rfl)

end Segmentation

/-- Scanning succeeds exactly if every character is known, and otherwise fails at the first one
that is not. Where it succeeds, its tokens are the one segmentation of the source with the end
of the input behind it; each of them covers, within the source, the text between its offsets. -/
theorem tokenize_segments (source : String) :
    ((∃ tokens, tokenize source = .ok tokens) ↔ ∀ c ∈ source.toList, Text.Known c) ∧
    (∀ before c after, source.toList = before ++ c :: after → (∀ d ∈ before, Text.Known d) →
      ¬ Text.Known c →
      tokenize source = .error (.unknownToken c.toString (Text.byteLength before))) ∧
    (∀ tokens, tokenize source = .ok tokens ↔
      ∃ body, tokens = body ++ [finishAt source.utf8ByteSize] ∧ Segmentation 0 source.toList body) ∧
    (∀ body, Segmentation 0 source.toList body → ∀ t ∈ body,
      t.start < t.stop ∧ t.stop ≤ source.utf8ByteSize ∧ t = placed source t.kind t.start t.stop) := by
  have size : 0 + Text.byteLength source.toList = source.utf8ByteSize := by
    rw [Nat.zero_add, Text.byteLength_toList]
  refine ⟨⟨?_, ?_⟩, ?_, fun tokens => ⟨?_, ?_⟩, ?_⟩
  · rintro ⟨tokens, scanned⟩
    obtain ⟨body, cut, _⟩ := cut_of_scan scanned
    exact cut.known
  · intro known
    obtain ⟨body, cut⟩ := exists_cut known 0
    exact ⟨_, cut.scanned⟩
  · intro before c after same known unknown
    rw [tokenize, same, scan_first_unknown known unknown, Nat.zero_add]
  · intro scanned
    obtain ⟨body, cut, rfl⟩ := cut_of_scan scanned
    exact ⟨body, by rw [size], .of_cut cut⟩
  · rintro ⟨body, rfl, segments⟩
    rw [tokenize, segments.cut.scanned, size]
  · intro body segments t member
    have stands := segments.stands t member
    refine ⟨stands.offset_le.2, size ▸ stands.stop_le, ?_⟩
    obtain ⟨before, piece, after, same, place, _⟩ := stands
    rw [Nat.zero_add] at place
    have start : t.start = Text.byteLength before := congrArg Token.start place
    have stop : t.stop = Text.byteLength before + Text.byteLength piece := congrArg Token.stop place
    rw [placed, start, stop, Text.slice_append same]
    exact place

theorem tokenize_segments_superscript :
    tokenize "2²" = .error (.unknownToken "²" 1) ∧
    tokenize "a***7" = .ok (([⟨.name, 0, 1, "a"⟩, ⟨.operator .pow, 1, 3, "**"⟩,
      ⟨.operator .mul, 3, 4, "*"⟩, ⟨.number, 4, 5, "7"⟩] : List Token) ++ [finishAt 5]) ∧
    Segmentation 0 "a***7".toList [⟨.name, 0, 1, "a"⟩, ⟨.operator .pow, 1, 3, "**"⟩,
      ⟨.operator .mul, 3, 4, "*"⟩, ⟨.number, 4, 5, "7"⟩] := by
  have scanned : tokenize "a***7" = .ok (([⟨.name, 0, 1, "a"⟩, ⟨.operator .pow, 1, 3, "**"⟩,
      ⟨.operator .mul, 3, 4, "*"⟩, ⟨.number, 4, 5, "7"⟩] : List Token) ++ [finishAt 5]) := by
    decide +kernel
  obtain ⟨body, same, segments⟩ := ((tokenize_segments "a***7").2.2.1 _).mp scanned
  obtain ⟨rfl, _⟩ := List.append_inj' same rfl
  have known : ∀ d ∈ ['2'], Text.Known d := List.forall_mem_singleton.mpr (by decide)
  exact ⟨(tokenize_segments "2²").2.1 ['2'] '²' [] rfl known (by decide), scanned, segments⟩

end Token
end Reckoner
