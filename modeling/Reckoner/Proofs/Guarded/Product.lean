import Mathlib.Tactic.Ring
import Reckoner.Proofs.Guarded.Columns

namespace Reckoner.Guarded
open Numeral (weigh)

/-- Of the row of `s` at place `j`, which started on `start`, `i` digits of `long` are done. -/
structure Rowed (start long : List Nat) (s j i : Nat) (columns : Columns) : Prop where
  length : columns.1.length = start.length
  digits : ∀ d ∈ columns.1, d ≤ 9
  carry : columns.2 ≤ 9
  total : weigh columns.1 + 10 ^ (i + j) * columns.2 = weigh start + 10 ^ j * (s * weigh (long.take i))
  above : ∀ k, i + j ≤ k → columns.1[k]? = start[k]?

variable {start long short : List Nat} {s j : Nat}

theorem Rowed.cell {i l : Nat} {columns : Columns} (h : Rowed start long s j i columns)
    (factor : s ≤ 9) (digit : l ≤ 9) (here : long[i]? = some l) (inside : i + j < start.length) :
    ∃ later, cell s j columns (l, i) = .ok later ∧ Rowed start long s j (i + 1) later := by
  have room : i + j < columns.1.length := h.length ▸ inside
  obtain ⟨old, found⟩ : ∃ old, columns.1[i + j]? = some old := ⟨_, List.getElem?_eq_getElem room⟩
  have small : old ≤ 9 := h.digits old (List.mem_of_getElem? found)
  have carry := h.carry
  have times : l * s ≤ 9 * 9 := Nat.mul_le_mul digit factor
  have written := weigh_set ((l * s + old + columns.2) % 10) found
  refine ⟨(columns.1.set (i + j) ((l * s + old + columns.2) % 10), (l * s + old + columns.2) / 10), ?_, ?_⟩
  · simp only [Guarded.cell, word_ok (show l * s ≤ 255 by omega), fetch_ok found, ok_bind,
      word_ok (show l * s + old ≤ 255 by omega), word_ok (show l * s + old + columns.2 ≤ 255 by omega),
      cut_ok (show (l * s + old + columns.2) % 10 ≤ 255 by omega), store_ok _ room]
    rfl
  · generalize sum : l * s + old + columns.2 = cell at written ⊢
    refine ⟨?_, set_le h.digits (by omega), ?_, ?_, ?_⟩
    · simp only [List.length_set, h.length]
    · dsimp only
      omega
    · have whole : 10 ^ (i + j) * (cell % 10) + 10 ^ (i + 1 + j) * (cell / 10) =
          10 ^ (i + j) * (l * s) + 10 ^ (i + j) * old + 10 ^ (i + j) * columns.2 := by
        have parts : cell % 10 + 10 * (cell / 10) = cell := Nat.mod_add_div cell 10
        calc
          _ = 10 ^ (i + j) * (cell % 10 + 10 * (cell / 10)) := by ring
          _ = _ := by rw [parts, ← sum]; ring
      have row : 10 ^ j * (s * (weigh (long.take i) + 10 ^ i * l)) =
          10 ^ j * (s * weigh (long.take i)) + 10 ^ (i + j) * (l * s) := by ring
      have total := h.total
      simp only [weigh_take_found here, row]
      omega
    · intro k higher
      have other : i + j ≠ k := by omega
      simp only [List.getElem?_set_ne other]
      exact h.above k (by omega)

theorem rowInto_ok (factor : s ≤ 9) (hl : ∀ d ∈ long, d ≤ 9) (hs : ∀ d ∈ start, d ≤ 9)
    (top : start[long.length + j]? = some 0) :
    ∃ written, rowInto long start (s, j) = .ok written ∧ written.length = start.length ∧
      (∀ d ∈ written, d ≤ 9) ∧ weigh written = weigh start + 10 ^ j * (s * weigh long) := by
  have first : Rowed start long s j 0 (start, 0) :=
    ⟨rfl, hs, Nat.zero_le 9, by simp [weigh], fun _ _ => rfl⟩
  have inside : long.length + j < start.length := (List.getElem?_eq_some_iff.mp top).1
  obtain ⟨columns, run, rowed⟩ := foldlM_zipIdx (f := cell s j) long first fun i l t here kept => by
    have within : i < long.length := (List.getElem?_eq_some_iff.mp here).1
    exact kept.cell factor (hl l (List.mem_of_getElem? here)) here (by omega)
  have carry := rowed.carry
  have room : long.length + j < columns.1.length := rowed.length ▸ inside
  have empty : columns.1[long.length + j]? = some 0 := (rowed.above _ (Nat.le_refl _)).trans top
  refine ⟨columns.1.set (long.length + j) columns.2, ?_, ?_, set_le rowed.digits carry, ?_⟩
  · simp only [rowInto, run, ok_bind, cut_ok (show columns.2 ≤ 255 by omega), store_ok _ room]
  · simp only [List.length_set, rowed.length]
  · have written := weigh_set columns.2 empty
    have total := rowed.total
    rw [List.take_length] at total
    omega

structure Stacked (long short : List Nat) (j : Nat) (written : List Nat) : Prop where
  length : written.length = long.length + short.length
  digits : ∀ d ∈ written, d ≤ 9
  total : weigh written = weigh long * weigh (short.take j)

theorem stacked_nil (long short : List Nat) :
    Stacked long short 0 (List.replicate (long.length + short.length) 0) := by
  have zeros (n : Nat) : weigh (List.replicate n 0) = 0 := by
    induction n with
    | zero => rfl
    | succ n ih => simp only [List.replicate_succ, weigh, ih]
  refine ⟨List.length_replicate, ?_, zeros _⟩
  intro d member
  obtain rfl := List.eq_of_mem_replicate member
  exact Nat.zero_le 9

theorem Stacked.empty {written : List Nat} (h : Stacked long short j written) (hl : ∀ d ∈ long, d ≤ 9)
    (hs : ∀ d ∈ short, d ≤ 9) (more : j < short.length) : written[long.length + j]? = some 0 := by
  have room : long.length + j < written.length := by
    have length := h.length
    omega
  obtain ⟨d, found⟩ : ∃ d, written[long.length + j]? = some d := ⟨_, List.getElem?_eq_getElem room⟩
  have upper : weigh long < 10 ^ long.length := Numeral.weigh_lt hl
  have lower : weigh (short.take j) < 10 ^ j := by
    have used : ∀ d ∈ short.take j, d ≤ 9 := fun d member => hs d (List.mem_of_mem_take member)
    have bound := Numeral.weigh_lt used
    rwa [List.length_take_of_le (Nat.le_of_lt more)] at bound
  have below : weigh written < 10 ^ (long.length + j) := by
    rw [h.total, Nat.pow_add]
    exact Nat.mul_lt_mul'' upper lower
  have share := le_weigh_of_getElem? found
  have nothing : d = 0 := by
    by_contra nonzero
    have least : 10 ^ (long.length + j) * 1 ≤ 10 ^ (long.length + j) * d :=
      Nat.mul_le_mul_left _ (Nat.pos_of_ne_zero nonzero)
    omega
  exact nothing ▸ found

theorem productInto_ok (hl : ∀ d ∈ long, d ≤ 9) (hs : ∀ d ∈ short, d ≤ 9) :
    ∃ written, productInto long short = .ok written ∧ (∀ d ∈ written, d ≤ 9) ∧
      weigh written = weigh long * weigh short := by
  obtain ⟨written, run, stacked⟩ := foldlM_zipIdx (f := rowInto long) short (stacked_nil long short)
    fun j s t here kept => by
      have more : j < short.length := (List.getElem?_eq_some_iff.mp here).1
      obtain ⟨later, row, length, digits, total⟩ :=
        rowInto_ok (hs s (List.mem_of_getElem? here)) hl kept.digits (kept.empty hl hs more)
      refine ⟨later, row, length.trans kept.length, digits, ?_⟩
      rw [total, kept.total, weigh_take_found here]
      ring
  have total := stacked.total
  rw [List.take_length] at total
  exact ⟨written, run, stacked.digits, total⟩

theorem productDigits_ok {as bs : List Nat} (ha : ∀ d ∈ as, d ≤ 9) (hb : ∀ d ∈ bs, d ≤ 9) :
    ∃ written, productDigits as bs = .ok written ∧ (∀ d ∈ written, d ≤ 9) ∧
      weigh written = weigh as * weigh bs := by
  unfold productDigits
  split
  · exact productInto_ok ha hb
  · rw [Nat.mul_comm]
    exact productInto_ok hb ha

variable {a b n : Numeral}

theorem product_ok (ha : a.Normal) (hb : b.Normal) : product a b = .ok (Numeral.product a b) := by
  obtain ⟨written, run, digits, total⟩ := productDigits_ok ha.2.1 hb.2.1
  have same : Numeral.ofDigits written = Numeral.product a b :=
    eq_ofDigits digits (Numeral.normal_product ha hb) (total.trans (Numeral.value_product a b).symm)
  simp only [product, run, ok_bind, same]
  rfl

theorem timesDigit_ok {d : Nat} (h : n.Normal) (small : d ≤ 9) : timesDigit n d = .ok (n.timesDigit d) := by
  have normal := Numeral.normal_timesDigit h small
  have value := Numeral.value_timesDigit n d
  unfold timesDigit
  rw [check_ok (decide_eq_true small), ok_bind]
  split
  · next zero =>
    have same : Numeral.zero = n.timesDigit d :=
      Numeral.eq_of_value_eq Numeral.normal_zero normal (by rw [value, zero, Nat.zero_mul]; rfl)
    exact congrArg Except.ok same
  · obtain ⟨written, run, digits, total⟩ := productDigits_ok h.2.1 (List.forall_mem_singleton.mpr small)
    have same : Numeral.ofDigits written = n.timesDigit d := by
      apply eq_ofDigits digits normal
      rw [total, value, Nat.mul_comm]
      rfl
    rw [run, ok_bind, same]
    rfl

theorem mul_ok (ha : a.Normal) (hb : b.Normal) (limit : DigitLimit) :
    mul a b limit = .ok (a.mul b limit) := by
  have one : 1 ≤ a.digitCount + b.digitCount := Nat.le_add_right_of_le ha.digitCount_pos
  unfold mul Numeral.mul
  split
  · rfl
  · rw [minus_ok one, ok_bind]
    dsimp only
    split
    · rw [product_ok ha hb]
      rfl
    · rfl

end Reckoner.Guarded
