import Grug.BTreeMap
import Grug.Uint128
import Mathlib.Data.String.Basic

namespace Grug

structure Coin where
  denom : String
  amount : Uint128
deriving DecidableEq

/-- `Coins`: a map from denoms to amounts, one record per denom, ordered by denom. -/
structure Coins where
  map : BTreeMap String Uint128
deriving DecidableEq

namespace Coins

def empty : Coins := ⟨BTreeMap.empty⟩

/-- `Default`, derived: the empty map. -/
instance : Inhabited Coins := ⟨empty⟩

/-- Collect `(denom, amount)` pairs without checking for duplicates or zero amounts. -/
def fromVecUnchecked (vec : List Coin) : Coins :=
  ⟨BTreeMap.ofList (vec.map fun coin => (coin.denom, coin.amount))⟩

/-- The loop of `from_iter_unchecked`: insert each pair, a later pair of a denom replacing an
earlier one, and stop at the first error. -/
def collectUnchecked {E : Type} (map : BTreeMap String Uint128) :
    List (Except E (String × Uint128)) → Except E Coins
  | [] => .ok ⟨map⟩
  | .error e :: _ => .error e
  | .ok (denom, amount) :: rest => collectUnchecked (map.insert denom amount).2 rest

def fromIterUnchecked {E : Type} (iter : List (Except E (String × Uint128))) : Except E Coins :=
  collectUnchecked BTreeMap.empty iter

def isEmpty (self : Coins) : Bool := self.map.isEmpty

/-- Whether the map holds a record for `denom`. -/
def has (self : Coins) (denom : String) : Bool := (self.map.get denom).isSome

/-- The amount of `denom`; zero if the denom does not exist. -/
def amountOf (self : Coins) (denom : String) : Uint128 := (self.map.get denom).getD Uint128.zero

/-- `increase_amount`, as the call's result and the value of `self` after it. A missing denom gets
a new record; otherwise `checked_add` either fails, before the assignment, or replaces the
amount. -/
def increaseAmount (self : Coins) (denom : String) (by_ : Uint128) : StdResult Unit × Coins :=
  match self.map.get denom with
  | none => (.ok (), ⟨(self.map.insert denom by_).2⟩)
  | some amount =>
    match amount.checkedAdd by_ with
    | .error e => (.error e, self)
    | .ok sum => (.ok (), ⟨(self.map.insert denom sum).2⟩)

/-- `decrease_amount`: fails on a missing denom or when `checked_sub` fails; a record reduced to
exactly zero is purged. -/
def decreaseAmount (self : Coins) (denom : String) (by_ : Uint128) : StdResult Unit × Coins :=
  match self.map.get denom with
  | none => (.error (.denomNotFound denom), self)
  | some amount =>
    match amount.checkedSub by_ with
    | .error e => (.error e, self)
    | .ok diff =>
      let map := (self.map.insert denom diff).2
      (.ok (), ⟨if diff.isZero then map.remove denom else map⟩)

/-- `From<Coin>`: the one-record map, with no check of the amount. -/
def fromCoin (coin : Coin) : Coins := ⟨BTreeMap.ofList [(coin.denom, coin.amount)]⟩

/-- `From<Coins> for Vec<Coin>`: the records in map order. -/
def toVec (self : Coins) : List Coin := self.map.entries.map fun e => ⟨e.1, e.2⟩

@[ext] theorem ext {c₁ c₂ : Coins} (h : ∀ d, c₁.map.get d = c₂.map.get d) : c₁ = c₂ := by
  obtain ⟨m₁⟩ := c₁
  obtain ⟨m₂⟩ := c₂
  exact congrArg Coins.mk (BTreeMap.ext h)

@[simp] theorem has_mk (m : BTreeMap String Uint128) (d : String) :
    (Coins.mk m).has d = (m.get d).isSome := rfl

@[simp] theorem amountOf_mk (m : BTreeMap String Uint128) (d : String) :
    (Coins.mk m).amountOf d = (m.get d).getD Uint128.zero := rfl

theorem amountOf_of_not_has {c : Coins} {d : String} (h : c.has d = false) :
    c.amountOf d = Uint128.zero := by
  simp only [has, Option.not_isSome, Option.isNone_iff_eq_none, Bool.not_eq_true] at h
  simp [amountOf, h]

theorem get_of_has {c : Coins} {d : String} (h : c.has d = true) :
    c.map.get d = some (c.amountOf d) := by
  obtain ⟨a, ha⟩ := Option.isSome_iff_exists.mp h
  simp [amountOf, ha]

/-- What one `increase_amount` call can do: fail on an overflow of a present record and leave
`self` as it was, or bind the denom to the sum. -/
theorem increaseAmount_cases (c : Coins) (d : String) (x : Uint128) :
    (∃ e, c.increaseAmount d x = (.error e, c) ∧
      c.has d ∧ Uint128.MAX.val < (c.amountOf d).val + x.val) ∨
    (∃ v : Uint128, c.increaseAmount d x = (.ok (), ⟨(c.map.insert d v).2⟩) ∧
      v.val = (c.amountOf d).val + x.val ∧ ¬(c.has d ∧ Uint128.MAX.val < (c.amountOf d).val + x.val)) := by
  unfold increaseAmount
  cases hg : c.map.get d with
  | none =>
    have hh : c.has d = false := by simp [has, hg]
    exact .inr ⟨x, rfl, by simp [amountOf_of_not_has hh], by simp [hh]⟩
  | some a =>
    have ha : c.amountOf d = a := by simp [amountOf, hg]
    have hh : c.has d = true := by simp [has, hg]
    cases hs : a.checkedAdd x with
    | error e =>
      exact .inl ⟨e, by simp [hs], hh, by rw [ha]; exact Uint128.checkedAdd_error hs⟩
    | ok v =>
      obtain ⟨hle, hv⟩ := Uint128.checkedAdd_ok.mp hs
      exact .inr ⟨v, by simp [hs], by rw [ha, hv], by rw [ha]; omega⟩

/-- What one `decrease_amount` call can do: fail on a missing denom or an amount larger than the
record and leave `self` as it was, or store the difference, purging the record at zero. -/
theorem decreaseAmount_cases (c : Coins) (d : String) (x : Uint128) :
    (∃ e, c.decreaseAmount d x = (.error e, c) ∧ (c.has d = false ∨ (c.amountOf d).val < x.val)) ∨
    (∃ v : Uint128, c.decreaseAmount d x =
        (.ok (), ⟨if v.isZero then (c.map.insert d v).2.remove d else (c.map.insert d v).2⟩) ∧
      v.val = (c.amountOf d).val - x.val ∧ c.has d = true ∧ x.val ≤ (c.amountOf d).val) := by
  unfold decreaseAmount
  cases hg : c.map.get d with
  | none => exact .inl ⟨_, rfl, .inl (by simp [has, hg])⟩
  | some a =>
    have ha : c.amountOf d = a := by simp [amountOf, hg]
    have hh : c.has d = true := by simp [has, hg]
    cases hs : a.checkedSub x with
    | error e =>
      exact .inl ⟨e, by simp [hs], .inr (by rw [ha]; exact Uint128.checkedSub_error hs)⟩
    | ok v =>
      obtain ⟨hle, hv⟩ := Uint128.checkedSub_ok.mp hs
      exact .inr ⟨v, by simp [hs], by rw [ha, hv], hh, by rw [ha]; exact hle⟩

/-- No denom is bound to a zero amount. -/
def NonZero (c : Coins) : Prop := ∀ e ∈ c.map.entries, e.2.val ≠ 0

instance : DecidablePred NonZero :=
  fun c => inferInstanceAs (Decidable (∀ e ∈ c.map.entries, e.2.val ≠ 0))

theorem nonZero_iff (c : Coins) : c.NonZero ↔ ∀ d a, c.map.get d = some a → a.val ≠ 0 :=
  ⟨fun h d a hg => h (d, a) ((c.map.mem_entries d a).mpr hg),
    fun h e he => h e.1 e.2 ((c.map.mem_entries e.1 e.2).mp he)⟩

/-- Under the invariant a record exists exactly when its amount is non-zero. -/
theorem NonZero.get_eq {c : Coins} (h : c.NonZero) (d : String) :
    c.map.get d = if (c.amountOf d).val = 0 then none else some (c.amountOf d) := by
  cases hg : c.map.get d with
  | none => simp [amountOf, hg]
  | some a => simp [amountOf, hg, (c.nonZero_iff.mp h) d a hg]

theorem NonZero.has_iff {c : Coins} (h : c.NonZero) (d : String) :
    c.has d = true ↔ (c.amountOf d).val ≠ 0 := by
  rw [has, h.get_eq d]
  split <;> simp_all

theorem NonZero.eq_iff {c₁ c₂ : Coins} (h₁ : c₁.NonZero) (h₂ : c₂.NonZero) :
    c₁ = c₂ ↔ ∀ d, c₁.amountOf d = c₂.amountOf d := by
  refine ⟨fun h _ => h ▸ rfl, fun h => ext fun d => ?_⟩
  rw [h₁.get_eq d, h₂.get_eq d, h d]

theorem nonZero_empty : empty.NonZero := by simp [NonZero, empty, BTreeMap.empty]

theorem NonZero.insert {c : Coins} (h : c.NonZero) (d : String) (v : Uint128) :
    (Coins.mk (c.map.insert d v).2).NonZero ↔ v.val ≠ 0 := by
  simp only [nonZero_iff, BTreeMap.get_insert]
  refine ⟨fun h' => h' d v (by simp), fun hv a b hg => ?_⟩
  split at hg
  · cases hg; exact hv
  · exact (c.nonZero_iff.mp h) a b hg

/-- `increase_amount` keeps the invariant exactly when it adds a non-zero amount or the denom
already has a record: adding zero to a missing denom stores a zero record. -/
theorem NonZero.increaseAmount_iff {c : Coins} (h : c.NonZero) (d : String) (x : Uint128) :
    (c.increaseAmount d x).2.NonZero ↔ x.val ≠ 0 ∨ c.has d = true := by
  rcases c.increaseAmount_cases d x with ⟨e, he, hd, _⟩ | ⟨v, hv, hval, _⟩
  · simp [he, h, hd]
  · rw [hv, h.insert, hval, h.has_iff]
    omega

theorem NonZero.decreaseAmount {c : Coins} (h : c.NonZero) (d : String) (x : Uint128) :
    (c.decreaseAmount d x).2.NonZero := by
  rcases c.decreaseAmount_cases d x with ⟨e, he, _⟩ | ⟨v, hv, _⟩
  · simpa [he] using h
  · rw [hv]
    split
    · simp only [nonZero_iff, BTreeMap.get_remove, BTreeMap.get_insert] at h ⊢
      intro a b hg
      split at hg
      · cases hg
      · exact h a b (by simp_all)
    · exact (h.insert d v).mpr (by simpa using ‹¬v.isZero = true›)

theorem fromCoin_nonZero_iff (coin : Coin) : (fromCoin coin).NonZero ↔ coin.amount.val ≠ 0 := by
  simpa [fromCoin, BTreeMap.ofList] using nonZero_empty.insert coin.denom coin.amount

/-- Adding zero of a missing denom to the empty value stores a zero record, which `has` reports. -/
theorem increaseAmount_empty_zero :
    ¬(empty.increaseAmount "uatom" Uint128.zero).2.NonZero ∧
      (empty.increaseAmount "uatom" Uint128.zero).2.has "uatom" = true ∧
      (empty.increaseAmount "uatom" Uint128.zero).2.amountOf "uatom" = Uint128.zero := by
  simp [increaseAmount, empty, NonZero, BTreeMap.insert, BTreeMap.get, insertEntry, lookupEntry]

end Coins

end Grug
