import Reckoner.Proofs.Binding
import Reckoner.Proofs.Guarded.Entry
import Reckoner.Proofs.Reading.RoundTrip

namespace Reckoner.Expr
open Bindings (isValidName bind Bindable)

variable {limit : DigitLimit} {settings : Settings} {e : Expr} {x : String}

theorem writable_var_iff : (Expr.var x).Writable limit ↔ isValidName x = true ∧ x ≠ "sqrt" := by
  have keyword : x.toList = "sqrt".toList ↔ x = "sqrt" := String.toList_inj
  have spelling : Token.keyword = "sqrt".toList := rfl
  rw [writable_var, Bindings.isValidName_iff_letters, and_assoc, spelling, ne_eq _ "sqrt".toList, keyword]

theorem parse_name (valid : isValidName x = true) (other : x ≠ "sqrt") : parse x settings = .ok (.var x) := by
  have writable : (Expr.var x).Writable settings.digitLimit := writable_var_iff.mpr ⟨valid, other⟩
  have read := parse_text_of_room writable settings.maxDepth_positive
  rwa [text_var] at read

theorem name_of_parse {source : String} (h : parse source settings = .ok e) (member : .var x ∈ e.nodes) :
    isValidName x = true ∧ x ≠ "sqrt" :=
  writable_var_iff.mp ((writable_of_parse h).of_mem_nodes member)

/-- A name alone is read as that variable exactly when it can be bound and is not the keyword;
and no other variables are read from any source. So whatever variables an expression has can be
bound, any of them together, to all numbers within the limit; and whatever is bound can be read,
except under the keyword. It makes no difference that names are tested byte by byte. -/
theorem names_agree (settings : Settings) :
    (∀ name, parse name settings = .ok (.var name) ↔ isValidName name = true ∧ name ≠ "sqrt") ∧
    (∀ source e, parse source settings = .ok e →
      (∀ x, .var x ∈ e.nodes → isValidName x = true ∧ x ≠ "sqrt") ∧
      ∀ (limit : DigitLimit) (pairs : List (String × String)),
        (∀ pair ∈ pairs, .var pair.1 ∈ e.nodes ∧ ∃ n, Numeral.ofDecimal pair.2 limit = .ok n) →
        (pairs.map Prod.fst).Nodup →
        ∃ b, bind pairs limit = .ok b ∧
          ∀ pair ∈ pairs, ∀ n, Numeral.ofDecimal pair.2 limit = .ok n → b.find? pair.1 = some n) ∧
    (∀ pairs limit b, bind pairs limit = .ok b →
      ∀ x n, b.find? x = some n → x ≠ "sqrt" → parse x settings = .ok (.var x)) ∧
    (∀ name, Guarded.isValidName name = isValidName name) := by
  refine ⟨fun name => ⟨?_, ?_⟩, fun source e read => ⟨?_, ?_⟩, ?_, Guarded.isValidName_eq⟩
  · exact fun read => name_of_parse read List.mem_cons_self
  · exact fun ⟨valid, other⟩ => parse_name valid other
  · exact fun x member => name_of_parse read member
  · intro limit pairs each distinct
    have names (pair) (member : pair ∈ pairs) : Bindable pair.1 :=
      Bindings.isValidName_iff.mp (name_of_parse read (each pair member).1).1
    have texts (pair) (member : pair ∈ pairs) : Numeral.Legible limit pair.2 := by
      obtain ⟨n, value⟩ := (each pair member).2
      exact (Numeral.ofDecimal_eq_ok_iff_legible.mp value).1
    obtain ⟨b, bound, holds⟩ := Bindings.bind_of_admissible ⟨names, texts, distinct⟩
    refine ⟨b, bound, fun pair member n value => ?_⟩
    have denotes : n.Denotes pair.2 :=
      (Numeral.denotes_iff (texts pair member)).mpr (Numeral.ofDecimal_eq_ok_iff_legible.mp value).2
    exact (holds.find?_eq_some_iff texts pair.1 n).mpr ⟨pair.2, member, denotes⟩
  · intro pairs limit b bound x n found other
    obtain ⟨admissible, holds⟩ := Bindings.holds_bind bound
    obtain ⟨pair, member, rfl⟩ := List.mem_map.mp ((holds.exists_find?_iff x).mp ⟨n, found⟩)
    exact parse_name (Bindings.isValidName_iff.mpr (admissible.names pair member)) other

theorem names_agree_keyword :
    let pairs := [("sqrtx", "09"), ("ab", "2")]
    let b : Bindings := ⟨[("ab", ⟨[2]⟩), ("sqrtx", ⟨[9]⟩)]⟩
    let e : Expr := .binary .add (.var "ab") (.root (.var "sqrtx"))
    parse "sqrtx" .standard = .ok (.var "sqrtx") ∧
    isValidName "sqrt" = true ∧ parse "sqrt" .standard ≠ .ok (.var "sqrt") ∧
    parse "(ab + sqrt sqrtx)" .standard = .ok e ∧
    (isValidName "ab" = true ∧ "ab" ≠ "sqrt") ∧
    (∃ b, bind pairs .standard = .ok b ∧ b.find? "sqrtx" = some ⟨[9]⟩) ∧
    bind pairs .standard = .ok b ∧ parse "ab" .standard = .ok (.var "ab") := by
  intro pairs b e
  obtain ⟨alone, inside, back, _⟩ := names_agree .standard
  have read : parse "(ab + sqrt sqrtx)" .standard = .ok e := by decide +kernel
  have first : .var "ab" ∈ e.nodes := by simp [e, nodes]
  have second : .var "sqrtx" ∈ e.nodes := by simp [e, nodes]
  have bound : bind pairs .standard = .ok b := by decide +kernel
  have nine : Numeral.ofDecimal "09" .standard = .ok ⟨[9]⟩ := by decide +kernel
  have two : Numeral.ofDecimal "2" .standard = .ok ⟨[2]⟩ := by decide +kernel
  obtain ⟨names, together⟩ := inside _ _ read
  have each : ∀ pair ∈ pairs, .var pair.1 ∈ e.nodes ∧ ∃ n, Numeral.ofDecimal pair.2 .standard = .ok n := by
    intro pair member
    simp only [pairs, List.mem_cons, List.not_mem_nil, or_false] at member
    rcases member with rfl | rfl
    · exact ⟨second, _, nine⟩
    · exact ⟨first, _, two⟩
  obtain ⟨b', bound', found⟩ := together .standard pairs each (by decide)
  refine ⟨(alone "sqrtx").mpr (by decide), by decide, fun keyword => ((alone "sqrt").mp keyword).2 rfl, read,
    names "ab" first, ⟨b', bound', found _ List.mem_cons_self _ nine⟩, bound,
    back pairs .standard b bound "ab" ⟨[2]⟩ (by decide) (by decide)⟩

end Reckoner.Expr
