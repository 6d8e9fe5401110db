import Grug.Coins

namespace Grug

namespace Coins

/-- A call of one of the two methods that mutate a `Coins` value. -/
inductive Call
  | increaseAmount (denom : String) (by_ : Uint128)
  | decreaseAmount (denom : String) (by_ : Uint128)

def Call.apply : Call → Coins → StdResult Unit × Coins
  | .increaseAmount d x, c => c.increaseAmount d x
  | .decreaseAmount d x, c => c.decreaseAmount d x

/-- The condition under which a call fails on the value it is applied to. -/
def Call.Fails : Call → Coins → Prop
  | .increaseAmount d x, c => c.has d = true ∧ Uint128.MAX.val < (c.amountOf d).val + x.val
  | .decreaseAmount d x, c => c.has d = false ∨ (c.amountOf d).val < x.val

/-- The signed change a successful call makes to the amount of `e`. -/
def Call.delta (e : String) : Call → Int
  | .increaseAmount d x => if d = e then x.val else 0
  | .decreaseAmount d x => if d = e then -x.val else 0

/-- The value after the calls, each applied to what the previous one left. -/
def applyAll (c : Coins) : List Call → Coins
  | [] => c
  | call :: calls => applyAll (call.apply c).2 calls

/-- The changes of `e` summed over the calls that succeed. -/
def netChange (e : String) (c : Coins) : List Call → Int
  | [] => 0
  | call :: calls =>
    (if (call.apply c).1.isOk then call.delta e else 0) + netChange e (call.apply c).2 calls

theorem Call.apply_isOk_eq_false_iff (call : Call) (c : Coins) :
    (call.apply c).1.isOk = false ↔ call.Fails c := by
  cases call with
  | increaseAmount d x =>
    rcases c.increaseAmount_cases d x with ⟨e, he, hf⟩ | ⟨v, hv, _, hf⟩ <;>
      simp_all [apply, Fails, Except.isOk, Except.toBool]
  | decreaseAmount d x =>
    rcases c.decreaseAmount_cases d x with ⟨e, he, hf⟩ | ⟨v, hv, _, hd, hle⟩ <;>
      simp_all [apply, Fails, Except.isOk, Except.toBool]

/-- A failing call leaves the value exactly as it was. -/
theorem Call.apply_eq_of_fails {call : Call} {c : Coins} (h : (call.apply c).1.isOk = false) :
    (call.apply c).2 = c := by
  cases call with
  | increaseAmount d x =>
    rcases c.increaseAmount_cases d x with ⟨e, he, _⟩ | ⟨v, hv, _⟩ <;>
      simp_all [apply, Except.isOk, Except.toBool]
  | decreaseAmount d x =>
    rcases c.decreaseAmount_cases d x with ⟨e, he, _⟩ | ⟨v, hv, _⟩ <;>
      simp_all [apply, Except.isOk, Except.toBool]

theorem amountOf_insert (c : Coins) (d e : String) (v : Uint128) :
    (Coins.mk (c.map.insert d v).2).amountOf e = if e = d then v else c.amountOf e := by
  simp only [amountOf_mk, BTreeMap.get_insert]
  split <;> rfl

theorem Call.amountOf_apply (call : Call) (c : Coins) (e : String) :
    (((call.apply c).2.amountOf e).val : Int) =
      (c.amountOf e).val + if (call.apply c).1.isOk then call.delta e else 0 := by
  cases call with
  | increaseAmount d x =>
    rcases c.increaseAmount_cases d x with ⟨_, he, _⟩ | ⟨v, hv, hval, _⟩
    · simp [apply, he, Except.isOk, Except.toBool]
    · simp only [apply, hv, amountOf_insert, Except.isOk, Except.toBool, if_true, delta]
      by_cases hd : e = d
      · subst hd; simp [hval]
      · simp [hd, Ne.symm hd]
  | decreaseAmount d x =>
    rcases c.decreaseAmount_cases d x with ⟨_, he, _⟩ | ⟨v, hv, hval, _, hle⟩
    · simp [apply, he, Except.isOk, Except.toBool]
    · simp only [apply, hv, Except.isOk, Except.toBool, if_true, delta]
      by_cases hd : e = d
      · subst hd
        split <;> simp_all [amountOf, Uint128.isZero] <;> omega
      · split <;> simp [amountOf, hd, Ne.symm hd]

theorem amountOf_applyAll (c : Coins) (calls : List Call) (e : String) :
    (((c.applyAll calls).amountOf e).val : Int) = (c.amountOf e).val + netChange e c calls := by
  induction calls generalizing c with
  | nil => simp [applyAll, netChange]
  | cons call calls ih =>
    rw [applyAll, ih, Call.amountOf_apply, netChange]
    exact Int.add_assoc _ _ _

/-- Over any sequence of calls: each call fails exactly under its condition on the value it
meets, a failing call changes nothing, and every denom ends at its initial amount plus the
successful increases minus the successful decreases. -/
theorem applyAll_accounting (c : Coins) (calls : List Call) :
    (∀ pre call post, calls = pre ++ call :: post →
      ((call.apply (c.applyAll pre)).1.isOk = false ↔ call.Fails (c.applyAll pre)) ∧
      ((call.apply (c.applyAll pre)).1.isOk = false →
        (call.apply (c.applyAll pre)).2 = c.applyAll pre)) ∧
    ∀ e, (((c.applyAll calls).amountOf e).val : Int) = (c.amountOf e).val + netChange e c calls :=
  ⟨fun _ call _ _ => ⟨call.apply_isOk_eq_false_iff _, Call.apply_eq_of_fails⟩,
    amountOf_applyAll c calls⟩

/-- Whether a call keeps a value free of zero records: every call does, but an increase by zero
of a denom the value has no record of. -/
def Call.KeepsNonZero : Call → Coins → Prop
  | .increaseAmount d x, c => x.val ≠ 0 ∨ c.has d = true
  | .decreaseAmount _ _, _ => True

instance : ∀ call c, Decidable (Call.KeepsNonZero call c)
  | .increaseAmount d x, c => inferInstanceAs (Decidable (x.val ≠ 0 ∨ c.has d = true))
  | .decreaseAmount _ _, _ => inferInstanceAs (Decidable True)

/-- On a value without zero records, a call leaves one exactly when it keeps the invariant. -/
theorem Call.nonZero_apply_iff {c : Coins} (hc : c.NonZero) (call : Call) :
    (call.apply c).2.NonZero ↔ call.KeepsNonZero c := by
  cases call with
  | increaseAmount d x => exact hc.increaseAmount_iff d x
  | decreaseAmount d x => exact iff_of_true (hc.decreaseAmount d x) trivial

/-- From a value without zero records, every value along a run is one exactly when each call
keeps the invariant on the value it meets. -/
theorem applyAll_nonZero_iff {c : Coins} (hc : c.NonZero) (calls : List Call) :
    (∀ n, (c.applyAll (calls.take n)).NonZero) ↔
      ∀ n (call : Call), calls[n]? = some call → call.KeepsNonZero (c.applyAll (calls.take n)) := by
  induction calls generalizing c with
  | nil => simpa [applyAll] using hc
  | cons call calls ih =>
    have hstep := Call.nonZero_apply_iff hc call
    constructor
    · intro h n call' hn
      have h₁ : (call.apply c).2.NonZero := h 1
      cases n with
      | zero =>
        obtain rfl : call = call' := by simpa using hn
        exact hstep.mp h₁
      | succ n => exact (ih h₁).mp (fun n => h (n + 1)) n call' (by simpa using hn)
    · intro h n
      have h₁ := hstep.mpr (h 0 call (by simp))
      cases n with
      | zero => exact hc
      | succ n => exact (ih h₁).mpr (fun n call' hn => h (n + 1) call' (by simpa using hn)) n

/-- The invariant of a value without zero records, over every run of `increase_amount` and
`decrease_amount` calls from one: it holds all along exactly when no call adds zero of a denom the
value it meets has no record of, and then, at the end, a denom has a record exactly when its
amount is non-zero, and the value equals another without zero records exactly when the two agree
on every amount. -/
theorem applyAll_nonZero (c : Coins) (hc : c.NonZero) (calls : List Call) :
    ((∀ n, (c.applyAll (calls.take n)).NonZero) ↔
      ∀ n (call : Call), calls[n]? = some call → call.KeepsNonZero (c.applyAll (calls.take n))) ∧
    ((∀ n (call : Call), calls[n]? = some call → call.KeepsNonZero (c.applyAll (calls.take n))) →
      (∀ d, (c.applyAll calls).has d = true ↔ ((c.applyAll calls).amountOf d).val ≠ 0) ∧
      ∀ c' : Coins, c'.NonZero →
        (c.applyAll calls = c' ↔ ∀ d, (c.applyAll calls).amountOf d = c'.amountOf d)) := by
  refine ⟨applyAll_nonZero_iff hc calls, fun hk => ?_⟩
  have hf : (c.applyAll calls).NonZero := by
    simpa using (applyAll_nonZero_iff hc calls).mpr hk calls.length
  exact ⟨hf.has_iff, fun _ hc' => hf.eq_iff hc'⟩

theorem applyAll_nonZero_empty :
    let calls : List Call := [.increaseAmount "uatom" ⟨5, by decide⟩, .decreaseAmount "uatom" ⟨5, by decide⟩]
    empty.NonZero ∧
    ((∀ n, (empty.applyAll (calls.take n)).NonZero) ↔
      ∀ n (call : Call), calls[n]? = some call → call.KeepsNonZero (empty.applyAll (calls.take n))) ∧
    ((∀ n (call : Call), calls[n]? = some call → call.KeepsNonZero (empty.applyAll (calls.take n))) →
      (∀ d, (empty.applyAll calls).has d = true ↔ ((empty.applyAll calls).amountOf d).val ≠ 0) ∧
      ∀ c' : Coins, c'.NonZero →
        (empty.applyAll calls = c' ↔ ∀ d, (empty.applyAll calls).amountOf d = c'.amountOf d)) :=
  ⟨nonZero_empty, applyAll_nonZero empty nonZero_empty _⟩

/-- A successful `decrease_amount` is undone exactly by `increase_amount` of the same denom and
amount, which cannot fail there. No invariant is needed: the decrease found a record. -/
theorem increaseAmount_undoes_decreaseAmount {c : Coins} {d : String} {x : Uint128}
    (h : (c.decreaseAmount d x).1 = .ok ()) :
    (c.decreaseAmount d x).2.increaseAmount d x = (.ok (), c) := by
  rcases c.decreaseAmount_cases d x with ⟨e, he, -⟩ | ⟨v, hv, hval, hh, hle⟩
  · rw [he] at h
    cases h
  have hc := get_of_has hh
  have hlt := (c.amountOf d).isLt
  rw [hv]
  by_cases hz : v.val = 0
  · have hx : x = c.amountOf d := Uint128.ext_val (by omega)
    subst hx
    refine Prod.ext ?_ (ext fun e => ?_) <;>
      simp only [increaseAmount, Uint128.isZero_iff, hz, if_true, BTreeMap.get_remove,
        BTreeMap.get_insert]
    split <;> simp_all
  · have hsum : v.checkedAdd x = .ok (c.amountOf d) :=
      Uint128.checkedAdd_ok.mpr ⟨by rw [Uint128.MAX_val]; omega, by omega⟩
    refine Prod.ext ?_ (ext fun e => ?_) <;>
      simp only [increaseAmount, Uint128.isZero_iff, hz, if_false, BTreeMap.get_insert, if_true, hsum]
    split <;> simp_all

theorem increaseAmount_undoes_decreaseAmount_uatom :
    let c := fromCoin ⟨"uatom", ⟨5, by decide⟩⟩
    (c.decreaseAmount "uatom" ⟨3, by decide⟩).1 = .ok () ∧
      (c.decreaseAmount "uatom" ⟨3, by decide⟩).2.increaseAmount "uatom" ⟨3, by decide⟩ = (.ok (), c) :=
  have h : ((fromCoin ⟨"uatom", ⟨5, by decide⟩⟩).decreaseAmount "uatom" ⟨3, by decide⟩).1 = .ok () := by
    simp [decreaseAmount, fromCoin, BTreeMap.ofList, Uint128.checkedSub]
  ⟨h, increaseAmount_undoes_decreaseAmount h⟩

/-- On a value without zero records, a successful `increase_amount` is undone exactly by
`decrease_amount` of the same denom and amount, which cannot fail there. -/
theorem decreaseAmount_undoes_increaseAmount {c : Coins} (hc : c.NonZero) {d : String} {x : Uint128}
    (h : (c.increaseAmount d x).1 = .ok ()) :
    (c.increaseAmount d x).2.decreaseAmount d x = (.ok (), c) := by
  rcases c.increaseAmount_cases d x with ⟨e, he, -⟩ | ⟨v, hv, hval, -⟩
  · rw [he] at h
    cases h
  have hdiff : v.checkedSub x = .ok (c.amountOf d) := Uint128.checkedSub_ok.mpr ⟨by omega, by omega⟩
  rw [hv]
  refine Prod.ext ?_ (ext fun e => ?_) <;>
    simp only [decreaseAmount, BTreeMap.get_insert, if_true, hdiff]
  by_cases he : e = d
  · subst he
    rw [hc.get_eq e]
    split <;> simp_all [Uint128.isZero]
  · split <;> simp [he]

theorem decreaseAmount_undoes_increaseAmount_uatom :
    let c := fromCoin ⟨"uatom", ⟨5, by decide⟩⟩
    c.NonZero ∧ (c.increaseAmount "uatom" ⟨3, by decide⟩).1 = .ok () ∧
      (c.increaseAmount "uatom" ⟨3, by decide⟩).2.decreaseAmount "uatom" ⟨3, by decide⟩ = (.ok (), c) :=
  have hc : (fromCoin ⟨"uatom", ⟨5, by decide⟩⟩).NonZero := (fromCoin_nonZero_iff _).mpr (by decide)
  have h : ((fromCoin ⟨"uatom", ⟨5, by decide⟩⟩).increaseAmount "uatom" ⟨3, by decide⟩).1 = .ok () := by
    simp [increaseAmount, fromCoin, BTreeMap.ofList, Uint128.checkedAdd]
  ⟨hc, h, decreaseAmount_undoes_increaseAmount hc h⟩

end Coins

end Grug
