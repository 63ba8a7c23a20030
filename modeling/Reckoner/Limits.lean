namespace Reckoner

structure DigitLimit where
  count : Nat
  positive : 0 < count := by decide
  deriving DecidableEq

namespace DigitLimit

def standard : DigitLimit := ⟨1000, by decide⟩

def allows (limit : DigitLimit) (digits : Nat) : Bool := decide (digits ≤ limit.count)

theorem allows_iff (limit : DigitLimit) (digits : Nat) :
    limit.allows digits = true ↔ digits ≤ limit.count := by
  simp only [allows, decide_eq_true_eq]

end DigitLimit

structure Settings where
  digitLimit : DigitLimit := .standard
  maxDepth : Nat := 256
  maxDepth_positive : 0 < maxDepth := by decide
  deriving DecidableEq

inductive SettingError where
  | zeroDigitLimit
  | zeroMaxDepth
  deriving DecidableEq

def SettingError.message : SettingError → String
  | .zeroDigitLimit => "Invalid digit limit: the maximum digit count must be at least 1."
  | .zeroMaxDepth => "Invalid nesting depth: the maximum depth must be at least 1."

namespace Settings

def standard : Settings := {}

def withDigitLimit (settings : Settings) (count : Nat) : Except SettingError Settings :=
  if positive : 0 < count then .ok { settings with digitLimit := ⟨count, positive⟩ }
  else .error .zeroDigitLimit

def withMaxDepth (settings : Settings) (depth : Nat) : Except SettingError Settings :=
  if positive : 0 < depth then
    .ok { settings with maxDepth := depth, maxDepth_positive := positive }
  else .error .zeroMaxDepth

end Settings
end Reckoner
