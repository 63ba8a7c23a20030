import Reckoner.Bindings
import Reckoner.Proofs.Numeral.Notation

/-! Binding pairs of a name and a text, one after the other. As long as none is refused the
entries are the pairs so far, read and in the order of their names; so a name has an entry
already exactly when it is the name of an earlier pair. All pairs are bound when each of them
can be bound alone and no two have one name, and in whatever order they come the entries are
the same. Otherwise the first pair that is refused is reported. -/
namespace Reckoner

namespace Numeral

/-- Decimal text that is not too long without the zeros at its beginning. -/
structure Legible (limit : DigitLimit) (text : String) : Prop where
  written : text ≠ ""
  digits : ∀ c ∈ text.toList, c.isDigit = true
  fits : (Text.unpadded text).length ≤ limit.count

structure Denotes (n : Numeral) (text : String) : Prop where
  normal : n.Normal
  value : n.value = Nat.ofDigitChars 10 text.toList 0

variable {limit : DigitLimit} {text : String} {n : Numeral}

theorem ofDecimal_eq_ok_iff_legible : ofDecimal text limit = .ok n ↔ Legible limit text ∧ n = spelled text := by
  rw [ofDecimal_eq_ok_iff]
  constructor
  · rintro ⟨nonempty, digits, rfl, fits⟩
    have each := List.all_eq_true.mp digits
    have written : text ≠ "" := fun empty => nonempty (String.toList_eq_nil_iff.mpr empty)
    exact ⟨⟨written, each, digitCount_spelled each ▸ fits⟩, rfl⟩
  · rintro ⟨⟨written, digits, fits⟩, rfl⟩
    have nonempty : text.toList ≠ [] := fun empty => written (String.toList_eq_nil_iff.mp empty)
    exact ⟨nonempty, List.all_eq_true.mpr digits, rfl, digitCount_spelled digits ▸ fits⟩

theorem value_spelled (text : String) : (spelled text).value = Nat.ofDigitChars 10 text.toList 0 := by
  have fold (cs : List Char) :
      weigh (cs.map digitOf) = cs.foldr (fun c sofar => 10 * sofar + (c.toNat - '0'.toNat)) 0 := by
    induction cs with
    | nil => rfl
    | cons c cs ih => rw [List.map_cons, List.foldr_cons, ← ih, weigh, digitOf, Nat.add_comm]
  unfold value spelled Nat.ofDigitChars
  rw [weigh_ofDigits, fold, List.foldl_eq_foldr_reverse]

theorem Legible.normal_spelled (legible : Legible limit text) : (spelled text).Normal :=
  Numeral.normal_spelled (List.all_eq_true.mpr legible.digits)

theorem denotes_iff (legible : Legible limit text) : n.Denotes text ↔ n = spelled text := by
  constructor
  · rintro ⟨normal, value⟩
    exact eq_of_value_eq normal legible.normal_spelled (value.trans (value_spelled text).symm)
  · rintro rfl
    exact ⟨legible.normal_spelled, value_spelled text⟩

end Numeral

theorem foldlM_eq_error_iff {α β ε : Type} {step : β → α → Except ε β} {b : β} {xs : List α} {e : ε} :
    xs.foldlM step b = .error e ↔
      ∃ before x after c, xs = before ++ x :: after ∧ before.foldlM step b = .ok c ∧ step c x = .error e := by
  constructor
  · intro h
    induction xs generalizing b with
    | nil => cases h
    | cons x xs ih =>
      rw [List.foldlM_cons] at h
      cases first : step b x with
      | error y =>
        rw [first] at h
        cases h
        exact ⟨[], x, xs, b, rfl, rfl, first⟩
      | ok c =>
        rw [first] at h
        obtain ⟨before, y, after, d, rfl, fine, failed⟩ := ih h
        refine ⟨x :: before, y, after, d, rfl, ?_, failed⟩
        rw [List.foldlM_cons, first]
        exact fine
  · rintro ⟨before, x, after, c, rfl, fine, failed⟩
    rw [List.foldlM_append, fine]
    change (x :: after).foldlM step c = _
    rw [List.foldlM_cons, failed]
    rfl

namespace Bindings

structure Bindable (name : String) : Prop where
  named : name ≠ ""
  letters : ∀ c ∈ name.toList, c.isAlpha = true

structure Admissible (limit : DigitLimit) (pairs : List (String × String)) : Prop where
  names : ∀ pair ∈ pairs, Bindable pair.1
  texts : ∀ pair ∈ pairs, Numeral.Legible limit pair.2
  distinct : (pairs.map Prod.fst).Nodup

/-- Why a pair is not bound behind pairs with these names: its name comes before its text, and
both before the names of the others. -/
inductive Refused (limit : DigitLimit) (earlier : List String) : String × String → BindError → Prop where
  | name {name text : String} : ¬ Bindable name → Refused limit earlier (name, text) (.invalidName name)
  | value {name text : String} {cause : NumberError} :
      Bindable name → Numeral.ofDecimal text limit = .error cause →
      Refused limit earlier (name, text) (.invalidValue name cause)
  | duplicate {name text : String} :
      Bindable name → Numeral.Legible limit text → name ∈ earlier →
      Refused limit earlier (name, text) (.duplicateName name)

theorem isLetter_eq_isAlpha (c : Char) : Text.isLetter c = c.isAlpha := by
  have upper : c.isUpper = (decide ('A' ≤ c) && decide (c ≤ 'Z')) := Bool.decide_and ..
  have alpha : c.isAlpha = (c.isUpper || c.isLower) := rfl
  rw [alpha, upper, Bool.or_comm]
  rfl

theorem isValidName_iff_letters {name : String} :
    isValidName name = true ↔ name.toList ≠ [] ∧ name.toList.all Text.isLetter = true := by
  unfold isValidName
  rw [Bool.and_eq_true, Bool.not_eq_true', List.isEmpty_eq_false_iff]

theorem isValidName_iff {name : String} : isValidName name = true ↔ Bindable name := by
  rw [isValidName_iff_letters, ne_eq, String.toList_eq_nil_iff, List.all_eq_true]
  simp only [isLetter_eq_isAlpha]
  exact ⟨fun ⟨named, letters⟩ => ⟨named, letters⟩, fun ⟨named, letters⟩ => ⟨named, letters⟩⟩

/- Entries in the order of their names. -/

def Sorted (entries : List (String × Numeral)) : Prop := entries.Pairwise fun p q => p.1 < q.1

section

variable {name : String} {value : Numeral} {entries result : List (String × Numeral)}

theorem insertEntry_perm (h : insertEntry name value entries = some result) :
    result.Perm ((name, value) :: entries) := by
  induction entries generalizing result with
  | nil =>
    cases h
    exact .refl _
  | cons entry entries ih =>
    unfold insertEntry at h
    split at h
    · cases h
    · split at h
      · cases h
        exact .refl _
      · obtain ⟨rest, inserted, rfl⟩ := Option.map_eq_some_iff.mp h
        exact ((ih inserted).cons entry).trans (.swap ..)

theorem insertEntry_eq_none_iff (sorted : Sorted entries) :
    insertEntry name value entries = none ↔ name ∈ entries.map Prod.fst := by
  induction entries with
  | nil => simp [insertEntry]
  | cons entry entries ih =>
    obtain ⟨first, rest⟩ := List.pairwise_cons.mp sorted
    unfold insertEntry
    split
    · next same => simp [same]
    · next other =>
      split
      · next before =>
        -- every other name comes later still
        have absent : name ∉ entries.map Prod.fst := by
          intro member
          obtain ⟨p, here, rfl⟩ := List.mem_map.mp member
          exact String.lt_asymm before (first p here)
        simp [other, absent]
      · rw [Option.map_eq_none_iff, ih rest]
        simp [other]

theorem sorted_insertEntry (sorted : Sorted entries) (h : insertEntry name value entries = some result) :
    Sorted result := by
  induction entries generalizing result with
  | nil =>
    cases h
    exact List.pairwise_singleton ..
  | cons entry entries ih =>
    obtain ⟨first, rest⟩ := List.pairwise_cons.mp sorted
    unfold insertEntry at h
    split at h
    · cases h
    · next other =>
      split at h
      · next before =>
        cases h
        apply List.pairwise_cons.mpr ⟨_, sorted⟩
        intro p member
        rcases List.mem_cons.mp member with rfl | later
        · exact before
        · exact String.lt_trans before (first p later)
      · next after =>
        obtain ⟨inner, inserted, rfl⟩ := Option.map_eq_some_iff.mp h
        apply List.pairwise_cons.mpr ⟨_, ih rest inserted⟩
        intro p member
        rcases List.mem_cons.mp ((insertEntry_perm inserted).mem_iff.mp member) with rfl | later
        · exact Std.lt_of_le_of_ne (String.not_lt.mp after) (Ne.symm other)
        · exact first p later

theorem lookup_eq_some_iff_mem (sorted : Sorted entries) :
    entries.lookup name = some value ↔ (name, value) ∈ entries := by
  rw [List.lookup_eq_some_iff]
  constructor
  · rintro ⟨before, after, rfl, _⟩
    exact List.mem_append_right _ List.mem_cons_self
  · intro member
    obtain ⟨before, after, rfl⟩ := List.append_of_mem member
    refine ⟨before, after, rfl, fun p earlier => bne_iff_ne.mpr ?_⟩
    have less := (List.pairwise_append.mp sorted).2.2 p earlier _ List.mem_cons_self
    rintro rfl
    exact String.lt_irrefl _ less

end

/-- The bindings that come of these pairs. -/
structure Holds (pairs : List (String × String)) (b : Bindings) : Prop where
  sorted : Sorted b.entries
  entries : b.entries.Perm (pairs.map fun pair => (pair.1, .spelled pair.2))

variable {limit : DigitLimit} {pairs before : List (String × String)} {pair : String × String}
  {b b' : Bindings} {e : BindError}

theorem holds_empty : Holds [] empty := ⟨List.Pairwise.nil, .nil⟩

theorem admissible_nil : Admissible limit [] :=
  ⟨fun _ member => absurd member List.not_mem_nil, fun _ member => absurd member List.not_mem_nil, List.nodup_nil⟩

namespace Holds

theorem names (h : Holds pairs b) : (b.entries.map Prod.fst).Perm (pairs.map Prod.fst) := by
  have names := h.entries.map Prod.fst
  rwa [List.map_map] at names

theorem unique (h : Holds pairs b) (h' : Holds pairs b') : b = b' := by
  have same : b.entries = b'.entries :=
    List.Perm.eq_of_pairwise (fun _ _ _ _ less more => absurd more (String.lt_asymm less))
      h.sorted h'.sorted (h.entries.trans h'.entries.symm)
  cases b
  cases b'
  exact congrArg Bindings.mk same

theorem of_perm {others : List (String × String)} (h : Holds others b) (perm : pairs.Perm others) :
    Holds pairs b :=
  ⟨h.sorted, h.entries.trans (perm.symm.map _)⟩

theorem find?_eq_some_iff (h : Holds pairs b) (texts : ∀ pair ∈ pairs, Numeral.Legible limit pair.2)
    (x : String) (n : Numeral) :
    b.find? x = some n ↔ ∃ text, (x, text) ∈ pairs ∧ n.Denotes text := by
  unfold find?
  rw [lookup_eq_some_iff_mem h.sorted, h.entries.mem_iff, List.mem_map]
  constructor
  · rintro ⟨⟨_, text⟩, member, same⟩
    cases same
    exact ⟨text, member, (Numeral.denotes_iff (texts _ member)).mpr rfl⟩
  · rintro ⟨text, member, denotes⟩
    rw [(Numeral.denotes_iff (texts _ member)).mp denotes]
    exact ⟨_, member, rfl⟩

theorem exists_find?_iff (h : Holds pairs b) (x : String) :
    (∃ n, b.find? x = some n) ↔ x ∈ pairs.map Prod.fst := by
  unfold find?
  simp only [lookup_eq_some_iff_mem h.sorted, ← h.names.mem_iff, List.mem_map, Prod.exists,
    exists_and_right, exists_eq_right]

end Holds

theorem Admissible.perm {others : List (String × String)} (h : Admissible limit pairs)
    (perm : pairs.Perm others) : Admissible limit others := by
  refine ⟨?_, ?_, (perm.map Prod.fst).nodup_iff.mp h.distinct⟩
  · exact fun pair member => h.names pair (perm.mem_iff.mpr member)
  · exact fun pair member => h.texts pair (perm.mem_iff.mpr member)

theorem Refused.not_admissible {after : List (String × String)}
    (refused : Refused limit (before.map Prod.fst) pair e) :
    ¬ Admissible limit (before ++ pair :: after) := by
  rintro ⟨names, texts, distinct⟩
  have here : pair ∈ before ++ pair :: after := List.mem_append_right _ List.mem_cons_self
  cases refused with
  | name unnamed => exact unnamed (names _ here)
  | value _ failed =>
    have read := Numeral.ofDecimal_eq_ok_iff_legible.mpr ⟨texts _ here, rfl⟩
    rw [failed] at read
    cases read
  | duplicate _ _ earlier =>
    rw [List.map_append, List.nodup_append] at distinct
    exact distinct.2.2 _ earlier _ List.mem_cons_self rfl

theorem extend_eq_error_iff (holds : Holds before b) :
    extend limit b pair = .error e ↔ Refused limit (before.map Prod.fst) pair e := by
  obtain ⟨name, text⟩ := pair
  have taken {value : Numeral} : insertEntry name value b.entries = none ↔ name ∈ before.map Prod.fst := by
    rw [insertEntry_eq_none_iff holds.sorted, holds.names.mem_iff]
  constructor
  · intro h
    unfold extend at h
    dsimp only at h
    split at h
    · next valid =>
      split at h
      · next cause unread =>
        cases h
        exact .value (isValidName_iff.mp valid) unread
      · next value read =>
        split at h
        · next refused =>
          cases h
          exact .duplicate (isValidName_iff.mp valid) (Numeral.ofDecimal_eq_ok_iff_legible.mp read).1
            (taken.mp refused)
        · cases h
    · next invalid =>
      cases h
      exact .name (mt isValidName_iff.mpr invalid)
  · intro refused
    unfold extend
    dsimp only
    cases refused with
    | name unnamed => rw [if_neg (mt isValidName_iff.mp unnamed)]
    | value named unread => rw [if_pos (isValidName_iff.mpr named), unread]
    | duplicate named legible earlier =>
      have read := Numeral.ofDecimal_eq_ok_iff_legible.mpr ⟨legible, rfl⟩
      rw [if_pos (isValidName_iff.mpr named), read]
      dsimp only
      rw [taken.mpr earlier]

theorem holds_extend (holds : Holds before b) (admissible : Admissible limit before)
    (h : extend limit b pair = .ok b') :
    Admissible limit (before ++ [pair]) ∧ Holds (before ++ [pair]) b' := by
  obtain ⟨name, text⟩ := pair
  unfold extend at h
  dsimp only at h
  split at h
  · next valid =>
    split at h
    · cases h
    · next value read =>
      obtain ⟨legible, rfl⟩ := Numeral.ofDecimal_eq_ok_iff_legible.mp read
      split at h
      · cases h
      · next entries inserted =>
        cases h
        have taken : insertEntry name (.spelled text) b.entries = none ↔ name ∈ b.entries.map Prod.fst :=
          insertEntry_eq_none_iff holds.sorted
        have fresh : name ∉ before.map Prod.fst := by
          rw [← holds.names.mem_iff, ← taken, inserted]
          exact Option.some_ne_none entries
        refine ⟨⟨?_, ?_, ?_⟩, sorted_insertEntry holds.sorted inserted, ?_⟩
        · exact List.forall_mem_append.mpr
            ⟨admissible.names, List.forall_mem_singleton.mpr (isValidName_iff.mp valid)⟩
        · exact List.forall_mem_append.mpr ⟨admissible.texts, List.forall_mem_singleton.mpr legible⟩
        · rw [List.map_append, List.nodup_append]
          refine ⟨admissible.distinct, List.pairwise_singleton .., fun x earlier y last same => fresh ?_⟩
          rwa [same, List.mem_singleton.mp last] at earlier
        · rw [List.map_append]
          have added := (insertEntry_perm inserted).trans (holds.entries.cons (name, .spelled text))
          exact added.trans (List.perm_append_singleton ..).symm
  · cases h

theorem holds_foldlM (holds : Holds before b) (admissible : Admissible limit before)
    (h : pairs.foldlM (extend limit) b = .ok b') :
    Admissible limit (before ++ pairs) ∧ Holds (before ++ pairs) b' := by
  induction pairs generalizing before b with
  | nil =>
    cases h
    rw [List.append_nil]
    exact ⟨admissible, holds⟩
  | cons pair pairs ih =>
    rw [List.foldlM_cons] at h
    cases first : extend limit b pair with
    | error e =>
      rw [first] at h
      cases h
    | ok next =>
      rw [first] at h
      obtain ⟨admissible', holds'⟩ := holds_extend holds admissible first
      have all := ih holds' admissible' h
      rwa [List.append_assoc] at all

theorem holds_bind (h : bind pairs limit = .ok b) : Admissible limit pairs ∧ Holds pairs b :=
  holds_foldlM holds_empty admissible_nil h

theorem bind_eq_error_iff :
    bind pairs limit = .error e ↔
      ∃ before pair after b, pairs = before ++ pair :: after ∧ bind before limit = .ok b ∧
        Refused limit (before.map Prod.fst) pair e := by
  unfold bind
  rw [foldlM_eq_error_iff]
  constructor
  · rintro ⟨before, pair, after, c, split, fine, failed⟩
    exact ⟨before, pair, after, c, split, fine, (extend_eq_error_iff (holds_bind fine).2).mp failed⟩
  · rintro ⟨before, pair, after, c, split, fine, refused⟩
    exact ⟨before, pair, after, c, split, fine, (extend_eq_error_iff (holds_bind fine).2).mpr refused⟩

theorem bind_of_admissible (admissible : Admissible limit pairs) :
    ∃ b, bind pairs limit = .ok b ∧ Holds pairs b := by
  cases bound : bind pairs limit with
  | ok b => exact ⟨b, rfl, (holds_bind bound).2⟩
  | error e =>
    obtain ⟨before, pair, after, _, rfl, _, refused⟩ := bind_eq_error_iff.mp bound
    exact absurd admissible refused.not_admissible

/-- Pairs are bound exactly when each has a name of letters and decimal text that fits, and no two
have one name. Then the names of the pairs are bound and no others, each to the number that its
text stands for, and in whatever order the pairs come they make the same bindings. Otherwise the
first pair is reported that is refused behind those before it. -/
theorem bind_exact (limit : DigitLimit) (pairs : List (String × String)) :
    ((∃ b, bind pairs limit = .ok b) ↔ Admissible limit pairs) ∧
    (∀ b, bind pairs limit = .ok b →
      (∀ x, (∃ n, b.find? x = some n) ↔ x ∈ pairs.map Prod.fst) ∧
      (∀ x n, b.find? x = some n ↔ ∃ text, (x, text) ∈ pairs ∧ n.Denotes text) ∧
      ∀ others, pairs.Perm others → bind others limit = .ok b) ∧
    (∀ e, bind pairs limit = .error e ↔
      ∃ before pair after b, pairs = before ++ pair :: after ∧ bind before limit = .ok b ∧
        Refused limit (before.map Prod.fst) pair e) := by
  refine ⟨⟨?_, ?_⟩, ?_, fun e => bind_eq_error_iff⟩
  · rintro ⟨b, bound⟩
    exact (holds_bind bound).1
  · intro admissible
    obtain ⟨b, bound, _⟩ := bind_of_admissible admissible
    exact ⟨b, bound⟩
  · intro b bound
    obtain ⟨admissible, holds⟩ := holds_bind bound
    refine ⟨holds.exists_find?_iff, holds.find?_eq_some_iff admissible.texts, ?_⟩
    intro others perm
    obtain ⟨b', bound', holds'⟩ := bind_of_admissible (admissible.perm perm)
    rw [bound', holds.unique (holds'.of_perm perm)]

theorem bind_exact_pairs :
    let limit : DigitLimit := ⟨2, by decide⟩
    let b : Bindings := ⟨[("x", ⟨[2]⟩), ("y", ⟨[0, 1]⟩)]⟩
    bind [("y", "0010"), ("x", "2")] limit = .ok b ∧ Admissible limit [("y", "0010"), ("x", "2")] ∧
      (∀ x, (∃ n, b.find? x = some n) ↔ x ∈ ["y", "x"]) ∧
      (∃ text, ("y", text) ∈ [("y", "0010"), ("x", "2")] ∧ Numeral.Denotes ⟨[0, 1]⟩ text) ∧
      bind [("x", "2"), ("y", "0010")] limit = .ok b ∧
      bind [("x", "2"), ("x", "100"), ("1", "")] limit = .error (.invalidValue "x" (.tooManyDigits 3 2)) ∧
      bind [("x", "2"), ("x", "10"), ("1", "")] limit = .error (.duplicateName "x") := by
  intro limit b
  have bound : bind [("y", "0010"), ("x", "2")] limit = .ok b := by decide +kernel
  obtain ⟨exactly, fine, _⟩ := bind_exact limit [("y", "0010"), ("x", "2")]
  obtain ⟨names, values, order⟩ := fine b bound
  obtain ⟨_, _, long⟩ := bind_exact limit [("x", "2"), ("x", "100"), ("1", "")]
  obtain ⟨_, _, twice⟩ := bind_exact limit [("x", "2"), ("x", "10"), ("1", "")]
  have named : Bindable "x" := isValidName_iff.mp (by decide)
  have first : bind [("x", "2")] limit = .ok ⟨[("x", ⟨[2]⟩)]⟩ := by decide +kernel
  have unread : Numeral.ofDecimal "100" limit = .error (.tooManyDigits 3 2) := by decide +kernel
  have read : Numeral.ofDecimal "10" limit = .ok (.spelled "10") := by decide +kernel
  have legible := (Numeral.ofDecimal_eq_ok_iff_legible.mp read).1
  refine ⟨bound, exactly.mp ⟨b, bound⟩, names, (values "y" _).mp (by decide), order _ (.swap ..),
    (long _).mpr ⟨[("x", "2")], _, _, _, rfl, first, .value named unread⟩,
    (twice _).mpr ⟨[("x", "2")], _, _, _, rfl, first, .duplicate named legible (by decide)⟩⟩

end Bindings
end Reckoner
