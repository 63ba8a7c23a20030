import Reckoner.Numeral.Basic

/-! The written methods once more, now with digits in bytes and the totals of a product in
words of 32 bits, in buffers of a fixed length. Everything that could go wrong on the way is
guarded and ends the work with a fault: a sum or product that its word cannot hold, a
difference below zero, a word that does not fit the byte it is cut to, a place outside a
buffer, and a check that fails. -/
namespace Reckoner.Guarded

inductive Fault where
  | overflow
  | underflow
  | cut
  | place
  | check
  deriving DecidableEq

/-- A sum or product of bytes. -/
def byte (n : Nat) : Except Fault Nat := if n < UInt8.size then .ok n else .error .overflow

def word (n : Nat) : Except Fault Nat := if n < UInt32.size then .ok n else .error .overflow

def minus (a b : Nat) : Except Fault Nat := if b ≤ a then .ok (a - b) else .error .underflow

def cut (n : Nat) : Except Fault Nat := if n < UInt8.size then .ok n else .error .cut

def fetch (ds : List Nat) (i : Nat) : Except Fault Nat :=
  match ds[i]? with
  | some d => .ok d
  | none => .error .place

def store (ds : List Nat) (i d : Nat) : Except Fault (List Nat) :=
  if i < ds.length then .ok (ds.set i d) else .error .place

def check (holds : Bool) : Except Fault Unit := if holds then .ok () else .error .check

/-- A place beyond the digits holds a zero. -/
def digitAt (n : Numeral) (i : Nat) : Nat := n.digits.getD i 0

def text (n : Numeral) : Except Fault String := do
  let codes ← n.digits.reverse.mapM fun d => byte ('0'.toNat + d)
  return String.ofList (codes.map Char.ofNat)

@[simp] theorem ok_bind {α β : Type} (a : α) (f : α → Except Fault β) : (Except.ok a >>= f) = f a := rfl

theorem exists_of_bind {α β : Type} {x : Except Fault α} {f : α → Except Fault β} {b : β}
    (h : x >>= f = .ok b) : ∃ a, x = .ok a ∧ f a = .ok b := by
  cases x with
  | error fault => cases h
  | ok a => exact ⟨a, rfl, h⟩

theorem byte_ok {n : Nat} (h : n ≤ 255) : byte n = .ok n := if_pos (Nat.lt_succ_of_le h)

theorem eq_of_byte {n m : Nat} (h : byte n = .ok m) : m = n := by
  unfold byte at h
  split at h
  · cases h
    rfl
  · cases h

theorem word_ok {n : Nat} (h : n ≤ 255) : word n = .ok n :=
  if_pos (Nat.lt_of_le_of_lt h (by decide))

theorem minus_ok {a b : Nat} (h : b ≤ a) : minus a b = .ok (a - b) := if_pos h

theorem cut_ok {n : Nat} (h : n ≤ 255) : cut n = .ok n := if_pos (Nat.lt_succ_of_le h)

theorem fetch_ok {ds : List Nat} {i d : Nat} (h : ds[i]? = some d) : fetch ds i = .ok d := by
  simp only [fetch, h]

theorem store_ok {ds : List Nat} {i : Nat} (d : Nat) (h : i < ds.length) :
    store ds i d = .ok (ds.set i d) := if_pos h

theorem eq_of_store {ds written : List Nat} {i d : Nat} (h : store ds i d = .ok written) :
    written = ds.set i d := by
  unfold store at h
  split at h
  · cases h
    rfl
  · cases h

theorem check_ok {holds : Bool} (h : holds = true) : check holds = .ok () := if_pos h

end Reckoner.Guarded
