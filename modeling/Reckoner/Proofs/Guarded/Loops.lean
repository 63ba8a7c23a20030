import Reckoner.Guarded.Columns
import Reckoner.Proofs.Numeral.Written

namespace Reckoner.Guarded
open Numeral (weigh)

/-- What each pass of a loop keeps, and no pass fails; `P` counts the passes. -/
theorem foldlM_ok {α σ : Type} {P : Nat → σ → Prop} {f : σ → α → Except Fault σ} {s : σ} (xs : List α)
    (first : P 0 s) (step : ∀ i x t, xs[i]? = some x → P i t → ∃ u, f t x = .ok u ∧ P (i + 1) u) :
    ∃ u, xs.foldlM f s = .ok u ∧ P xs.length u := by
  induction xs generalizing P s with
  | nil => exact ⟨s, rfl, first⟩
  | cons x xs ih =>
    obtain ⟨t, here, kept⟩ := step 0 x s rfl first
    obtain ⟨u, rest, done⟩ := ih (P := fun i => P (i + 1)) kept fun i y t found => step (i + 1) y t found
    refine ⟨u, ?_, done⟩
    rw [List.foldlM_cons, here]
    exact rest

theorem foldlM_range {σ : Type} {P : Nat → σ → Prop} {f : σ → Nat → Except Fault σ} {s : σ} (n : Nat)
    (first : P 0 s) (step : ∀ i t, P i t → ∃ u, f t i = .ok u ∧ P (i + 1) u) :
    ∃ u, (List.range n).foldlM f s = .ok u ∧ P n u := by
  have run := foldlM_ok (f := f) (List.range n) first fun i x t found kept => by
    obtain ⟨_, rfl⟩ := List.getElem?_eq_some_iff.mp found
    rw [List.getElem_range]
    exact step i t kept
  rwa [List.length_range] at run

theorem foldlM_zipIdx {α σ : Type} {P : Nat → σ → Prop} {f : σ → α × Nat → Except Fault σ} {s : σ}
    (xs : List α) (first : P 0 s)
    (step : ∀ i x t, xs[i]? = some x → P i t → ∃ u, f t (x, i) = .ok u ∧ P (i + 1) u) :
    ∃ u, xs.zipIdx.foldlM f s = .ok u ∧ P xs.length u := by
  have run := foldlM_ok (f := f) xs.zipIdx first fun i y t found kept => by
    rw [List.getElem?_zipIdx, Nat.zero_add] at found
    obtain ⟨x, here, rfl⟩ := Option.map_eq_some_iff.mp found
    exact step i x t here kept
  rwa [List.length_zipIdx] at run

theorem mapM_ok {α β : Type} {f : α → Except Fault β} {g : α → β} {xs : List α}
    (h : ∀ x ∈ xs, f x = .ok (g x)) : xs.mapM f = .ok (xs.map g) := by
  induction xs with
  | nil => rfl
  | cons x xs ih =>
    obtain ⟨here, rest⟩ := List.forall_mem_cons.mp h
    rw [List.mapM_cons, here, ok_bind, ih rest]
    rfl

/- How a digit list changes its value at one place. -/

theorem weigh_concat (ds : List Nat) (d : Nat) : weigh (ds ++ [d]) = weigh ds + 10 ^ ds.length * d :=
  Numeral.weigh_append ds [d]

theorem weigh_take_succ (ds : List Nat) (i : Nat) :
    weigh (ds.take (i + 1)) = weigh (ds.take i) + 10 ^ i * ds.getD i 0 := by
  induction ds generalizing i with
  | nil => simp [weigh]
  | cons d ds ih =>
    cases i with
    | zero => simp [weigh]
    | succ i =>
      have power : 10 ^ (i + 1) * ds.getD i 0 = 10 * (10 ^ i * ds.getD i 0) := by
        rw [Nat.pow_succ', Nat.mul_assoc]
      rw [List.take_succ_cons, List.take_succ_cons, weigh, weigh, ih, List.getD_cons_succ, power]
      omega

theorem weigh_take_found {ds : List Nat} {i d : Nat} (here : ds[i]? = some d) :
    weigh (ds.take (i + 1)) = weigh (ds.take i) + 10 ^ i * d := by
  rw [weigh_take_succ, List.getD_eq_getElem?_getD, here, Option.getD_some]

theorem weigh_set {ds : List Nat} {i e : Nat} (d : Nat) (here : ds[i]? = some e) :
    weigh (ds.set i d) + 10 ^ i * e = weigh ds + 10 ^ i * d := by
  induction ds generalizing i with
  | nil => cases here
  | cons f ds ih =>
    cases i with
    | zero =>
      cases here
      simp only [List.set_cons_zero, weigh]
      omega
    | succ i =>
      have above := ih here
      simp only [List.set_cons_succ, weigh, Nat.pow_succ', Nat.mul_assoc]
      omega

theorem le_weigh_of_getElem? {ds : List Nat} {i d : Nat} (here : ds[i]? = some d) :
    10 ^ i * d ≤ weigh ds := by
  have cleared := weigh_set 0 here
  omega

theorem concat_le {ds : List Nat} {d : Nat} (h : ∀ e ∈ ds, e ≤ 9) (small : d ≤ 9) :
    ∀ e ∈ ds ++ [d], e ≤ 9 :=
  List.forall_mem_append.mpr ⟨h, List.forall_mem_singleton.mpr small⟩

theorem set_le {ds : List Nat} {i d : Nat} (h : ∀ e ∈ ds, e ≤ 9) (small : d ≤ 9) :
    ∀ e ∈ ds.set i d, e ≤ 9 := by
  intro e member
  rcases List.mem_or_eq_of_mem_set member with before | rfl
  · exact h e before
  · exact small

theorem eq_ofDigits {ds : List Nat} {n : Numeral} (digits : ∀ d ∈ ds, d ≤ 9) (normal : n.Normal)
    (value : weigh ds = n.value) : Numeral.ofDigits ds = n := by
  apply Numeral.eq_of_value_eq (Numeral.normal_ofDigits digits) normal
  exact (Numeral.weigh_ofDigits ds).trans value

variable {a b n : Numeral}

theorem digitAt_le (h : n.Normal) (i : Nat) : digitAt n i ≤ 9 := by
  unfold digitAt
  rw [List.getD_eq_getElem?_getD]
  cases here : n.digits[i]? with
  | none => exact Nat.zero_le 9
  | some d => exact h.2.1 d (List.mem_of_getElem? here)

theorem text_ok (h : n.Normal) : text n = .ok n.text := by
  have codes : n.digits.reverse.mapM (fun d => byte ('0'.toNat + d)) =
      .ok (n.digits.reverse.map ('0'.toNat + ·)) := by
    apply mapM_ok
    intro d member
    have small := h.2.1 d (List.mem_reverse.mp member)
    have zero : '0'.toNat = 48 := rfl
    exact byte_ok (by omega)
  unfold text
  rw [codes, ok_bind, List.map_map]
  rfl

end Reckoner.Guarded
