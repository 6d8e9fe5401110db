import Mathlib.Order.Basic
import Mathlib.Algebra.Group.Nat.Basic

namespace Grug

/-- Modelled from the spec: `Uint128`, the fixed-precision non-negative amount of a coin. Its
definition is not among these sources; it holds a value below `2 ^ 128`. -/
structure Uint128 where
  val : Nat
  isLt : val < 2 ^ 128
deriving DecidableEq

/-- Modelled from the spec: the variants of `StdError` raised by the modelled code (the type is
defined outside these sources). -/
inductive StdError
  /-- `checked_add` overflowed. -/
  | overflowAdd (a b : Uint128)
  /-- `checked_sub` went below zero. -/
  | underflowSub (a b : Uint128)
  | denomNotFound (denom : String)
  | parseCoins (reason : String)
  /-- A storage `load` found no value under its key. -/
  | dataNotFound (ty : String)
  /-- A contract's own error, as `into_std_result` returns it. -/
  | generic (msg : String)
deriving DecidableEq

abbrev StdResult (α : Type) := Except StdError α

namespace Uint128

def MAX : Uint128 := ⟨2 ^ 128 - 1, by decide⟩

def zero : Uint128 := ⟨0, by decide⟩

def isZero (a : Uint128) : Bool := a.val == 0

def checkedAdd (a b : Uint128) : StdResult Uint128 :=
  if h : a.val + b.val < 2 ^ 128 then .ok ⟨a.val + b.val, h⟩ else .error (.overflowAdd a b)

def checkedSub (a b : Uint128) : StdResult Uint128 :=
  if h : b.val ≤ a.val then .ok ⟨a.val - b.val, by have := a.isLt; omega⟩
  else .error (.underflowSub a b)

@[simp] theorem isZero_iff (a : Uint128) : a.isZero = true ↔ a.val = 0 := by simp [isZero]

@[simp] theorem zero_val : zero.val = 0 := rfl

theorem MAX_val : MAX.val = 2 ^ 128 - 1 := rfl

theorem ext_val {a b : Uint128} (h : a.val = b.val) : a = b := by
  cases a; cases b; simp_all

theorem checkedAdd_ok {a b c : Uint128} :
    a.checkedAdd b = .ok c ↔ a.val + b.val ≤ MAX.val ∧ c.val = a.val + b.val := by
  unfold checkedAdd
  split
  · exact ⟨fun h => ⟨by rw [MAX_val]; omega, by cases h; rfl⟩,
      fun h => congrArg _ (ext_val h.2.symm)⟩
  · simp only [reduceCtorEq, false_iff, not_and]
    rw [MAX_val]
    omega

theorem checkedAdd_error {a b : Uint128} {e : StdError} (h : a.checkedAdd b = .error e) :
    MAX.val < a.val + b.val := by
  unfold checkedAdd at h
  split at h
  · cases h
  · rw [MAX_val]
    omega

theorem checkedSub_ok {a b c : Uint128} :
    a.checkedSub b = .ok c ↔ b.val ≤ a.val ∧ c.val = a.val - b.val := by
  unfold checkedSub
  split
  · exact ⟨fun h => ⟨by omega, by cases h; rfl⟩, fun h => congrArg _ (ext_val h.2.symm)⟩
  · simp only [reduceCtorEq, false_iff, not_and]
    omega

theorem checkedSub_error {a b : Uint128} {e : StdError} (h : a.checkedSub b = .error e) :
    a.val < b.val := by
  unfold checkedSub at h
  split at h
  · cases h
  · omega

end Uint128

end Grug
