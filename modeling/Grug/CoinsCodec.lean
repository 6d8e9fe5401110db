import Grug.Coins

namespace Grug

namespace Coins

/-- The `(denom, amount)` pairs of a list of coins. -/
def pairs (v : List Coin) : List (String × Uint128) := v.map fun x => (x.denom, x.amount)

@[simp] theorem pairs_nil : pairs [] = [] := rfl

@[simp] theorem pairs_cons (x : Coin) (v : List Coin) :
    pairs (x :: v) = (x.denom, x.amount) :: pairs v := rfl

theorem mem_pairs {v : List Coin} {x : Coin} : (x.denom, x.amount) ∈ pairs v ↔ x ∈ v := by
  simp only [pairs, List.mem_map, Prod.mk.injEq]
  exact ⟨fun ⟨y, hy, hd, ha⟩ => by cases x; cases y; simp_all, fun h => ⟨x, h, rfl, rfl⟩⟩

theorem pairs_keys (v : List Coin) : (pairs v).map Prod.fst = v.map Coin.denom := by
  simp [pairs]

/-- The loop shared by `TryFrom<Vec<Coin>>` and `CoinsVisitor::visit_seq`: stop at an element that
did not decode, reject a zero amount, and reject a denom whose `insert` returned an earlier
amount. The two differ only in the errors they return. -/
def collect {ε : Type} (zeroAmount duplicate : String → ε) :
    BTreeMap String Uint128 → List (Except ε Coin) → Except ε Coins
  | map, [] => .ok ⟨map⟩
  | _, .error e :: _ => .error e
  | map, .ok coin :: rest =>
    if coin.amount.isZero then .error (zeroAmount coin.denom)
    else match map.insert coin.denom coin.amount with
      | (some _, _) => .error (duplicate coin.denom)
      | (none, map) => collect zeroAmount duplicate map rest

/-- `TryFrom<Vec<Coin>>`: every element of the vector is a coin. -/
def tryFrom (vec : List Coin) : StdResult Coins :=
  collect (fun denom => .parseCoins ("denom `" ++ denom ++ "` as zero amount"))
    (fun _ => .parseCoins "duplicate denom found") BTreeMap.empty (vec.map .ok)

/-- `CoinsVisitor::visit_seq`, over what `seq.next_element()` yields: a coin, or the
deserializer's error. -/
def visitSeq (seq : List (Except String Coin)) : Except String Coins :=
  collect (fun _ => "Coin amount is zero") (fun _ => "Duplicate denom found") BTreeMap.empty seq

/-- `Serialize for Coins`: one `{denom, amount}` element per record, in map order. -/
def serialize (self : Coins) : List Coin := self.map.entries.map fun e => ⟨e.1, e.2⟩

/-- What the decoding loop accepts once `map` is filled: non-zero amounts and denoms found
neither twice in the list nor in `map`. -/
def Accepts (map : BTreeMap String Uint128) (v : List Coin) : Prop :=
  (∀ x ∈ v, x.amount.val ≠ 0) ∧ (v.map Coin.denom).Nodup ∧ ∀ x ∈ v, map.get x.denom = none

/-- The coins inserted into `map` in list order. -/
def collected (map : BTreeMap String Uint128) (v : List Coin) : Coins :=
  ⟨v.foldl (fun m x => (m.insert x.denom x.amount).2) map⟩

theorem collect_ok_cons {ε : Type} (z dup : String → ε) (m : BTreeMap String Uint128)
    (x : Coin) (rest : List (Except ε Coin)) :
    collect z dup m (.ok x :: rest) =
      if x.amount.isZero then .error (z x.denom)
      else if (m.get x.denom).isSome then .error (dup x.denom)
      else collect z dup (m.insert x.denom x.amount).2 rest := by
  simp only [collect, BTreeMap.insert]
  cases m.get x.denom <;> rfl

theorem accepts_cons {m : BTreeMap String Uint128} {x : Coin} {rest : List Coin} :
    Accepts m (x :: rest) ↔
      x.amount.val ≠ 0 ∧ m.get x.denom = none ∧ Accepts (m.insert x.denom x.amount).2 rest := by
  simp only [Accepts, List.forall_mem_cons, List.map_cons, List.nodup_cons, List.mem_map,
    BTreeMap.get_insert]
  constructor
  · rintro ⟨⟨hx, hr⟩, ⟨hn, hnd⟩, hm, hmr⟩
    refine ⟨hx, hm, hr, hnd, fun y hy => ?_⟩
    have : y.denom ≠ x.denom := fun h => hn ⟨y, hy, h⟩
    simp [this, hmr y hy]
  · rintro ⟨hx, hm, hr, hnd, hmr⟩
    have hne : ∀ y ∈ rest, y.denom ≠ x.denom := fun y hy h => by simpa [h] using hmr y hy
    exact ⟨⟨hx, hr⟩, ⟨fun ⟨y, hy, h⟩ => hne y hy h, hnd⟩, hm,
      fun y hy => by simpa [hne y hy] using hmr y hy⟩

/-- The decoding loop succeeds exactly on what it accepts, and then returns the coins inserted
in order. -/
theorem collect_ok_iff {ε : Type} (z dup : String → ε) (m : BTreeMap String Uint128)
    (v : List Coin) (c : Coins) :
    collect z dup m (v.map .ok) = .ok c ↔ Accepts m v ∧ c = collected m v := by
  induction v generalizing m with
  | nil => simp [collect, collected, Accepts, eq_comm]
  | cons x rest ih =>
    rw [List.map_cons, collect_ok_cons, accepts_cons]
    by_cases hz : x.amount.val = 0
    · simp [hz]
    · cases hg : m.get x.denom with
      | some a => simp [hz, hg]
      | none => simpa [hz, hg] using ih (m.insert x.denom x.amount).2

theorem collect_isOk_iff {ε : Type} (z dup : String → ε) (m : BTreeMap String Uint128)
    (v : List Coin) : (collect z dup m (v.map .ok)).isOk = true ↔ Accepts m v := by
  cases h : collect z dup m (v.map .ok) with
  | error e =>
    simp only [Except.isOk, Except.toBool, Bool.false_eq_true, false_iff]
    intro ha
    have := (collect_ok_iff z dup m v _).mpr ⟨ha, rfl⟩
    rw [h] at this
    cases this
  | ok c => simpa [Except.isOk, Except.toBool] using ((collect_ok_iff z dup m v c).mp h).1

theorem lookupEntry_pairs_cons_or {m : BTreeMap String Uint128} {x : Coin} {rest : List Coin}
    (h : ∀ y ∈ rest, y.denom ≠ x.denom) (k : String) :
    (lookupEntry k (pairs (x :: rest))).or (m.get k) =
      (lookupEntry k (pairs rest)).or ((m.insert x.denom x.amount).2.get k) := by
  by_cases hk : k = x.denom
  · subst hk
    have : lookupEntry x.denom (pairs rest) = none := lookupEntry_eq_none fun e he => by
      obtain ⟨y, hy, rfl⟩ := List.mem_map.mp he
      exact h y hy
    simp [lookupEntry, this]
  · rw [pairs_cons, lookupEntry, if_neg hk, BTreeMap.get_insert, if_neg hk]

theorem get_collected {m : BTreeMap String Uint128} {v : List Coin} (h : Accepts m v) (k : String) :
    (collected m v).map.get k = (lookupEntry k (pairs v)).or (m.get k) := by
  induction v generalizing m with
  | nil => simp [collected, lookupEntry]
  | cons x rest ih =>
    obtain ⟨-, -, hr⟩ := accepts_cons.mp h
    have hne : ∀ y ∈ rest, y.denom ≠ x.denom := fun y hy => (List.nodup_cons.mp h.2.1).1 ∘
      fun he => List.mem_map.mpr ⟨y, hy, he⟩
    rw [lookupEntry_pairs_cons_or hne]
    exact ih hr

theorem accepts_empty_iff (v : List Coin) :
    Accepts BTreeMap.empty v ↔ (∀ x ∈ v, x.amount.val ≠ 0) ∧ (v.map Coin.denom).Nodup := by
  simp [Accepts]

theorem Accepts.perm {v w : List Coin} (h : Accepts BTreeMap.empty v) (hw : w.Perm v) :
    Accepts BTreeMap.empty w :=
  (accepts_empty_iff w).mpr ⟨fun x hx => h.1 x (hw.subset hx), (hw.map _).nodup_iff.mpr h.2.1⟩

/-- Decoding is insensitive to the order of accepted coins. -/
theorem collected_perm {v w : List Coin} (h : Accepts BTreeMap.empty v) (hw : w.Perm v) :
    collected BTreeMap.empty w = collected BTreeMap.empty v := by
  ext1 k
  rw [get_collected h, get_collected (h.perm hw)]
  have hp : (pairs w).Perm (pairs v) := hw.map _
  rw [lookupEntry_eq_of_perm hp (by rw [pairs_keys]; exact (h.perm hw).2.1) k]

/-- The decoding loop succeeds only on a list of decoded coins. -/
theorem collect_eq_ok_map {ε : Type} {z dup : String → ε} {m : BTreeMap String Uint128}
    {l : List (Except ε Coin)} {c : Coins} (h : collect z dup m l = .ok c) :
    ∃ v : List Coin, l = v.map .ok := by
  induction l generalizing m with
  | nil => exact ⟨[], rfl⟩
  | cons r rest ih =>
    rcases r with e | x
    · cases h
    · rw [collect_ok_cons] at h
      split at h
      · cases h
      split at h
      · cases h
      obtain ⟨v, rfl⟩ := ih h
      exact ⟨x :: v, rfl⟩

/-- A reordering of decoded coins is itself a list of decoded coins, in the same order. -/
theorem exists_perm_of_perm_map_ok {ε : Type} {l : List (Except ε Coin)} {v : List Coin}
    (h : l.Perm (v.map .ok)) : ∃ w : List Coin, w.Perm v ∧ l = w.map .ok := by
  have hl : ∀ r ∈ l, ∃ x, r = .ok x := fun r hr => by
    obtain ⟨x, -, rfl⟩ := List.mem_map.mp (h.subset hr)
    exact ⟨x, rfl⟩
  have hw := List.Perm.filterMap Except.toOption h
  simp only [List.filterMap_map, Function.comp_def, Except.toOption, List.filterMap_some] at hw
  refine ⟨_, hw, ?_⟩
  clear h hw
  induction l with
  | nil => rfl
  | cons r l ih =>
    obtain ⟨x, rfl⟩ := hl r (List.mem_cons_self _ _)
    simp [Except.toOption, ← ih fun r hr => hl r (List.mem_cons_of_mem _ hr)]

/-- Every record of decoded coins is one of the coins. -/
theorem mem_entries_collected {v : List Coin} (hacc : Accepts BTreeMap.empty v)
    {e : String × Uint128} (he : e ∈ (collected BTreeMap.empty v).map.entries) :
    ∃ x ∈ v, x.denom = e.1 ∧ x.amount = e.2 := by
  rw [← Prod.mk.eta (p := e), BTreeMap.mem_entries, get_collected hacc, BTreeMap.get_empty,
    Option.or_none, ← mem_iff_lookupEntry (by rw [pairs_keys]; exact hacc.2.1)] at he
  obtain ⟨x, hx, hxe⟩ := List.mem_map.mp he
  exact ⟨x, hx, congrArg Prod.fst hxe, congrArg Prod.snd hxe⟩

theorem pairs_toVec (c : Coins) : pairs c.toVec = c.map.entries := by
  simp [pairs, toVec, Function.comp_def]

/-- `from_vec_unchecked` inverts `From<Coins> for Vec<Coin>` on every value, zero records
included: the records come out with distinct denoms, so reinserting them rebuilds the map. -/
theorem fromVecUnchecked_toVec (c : Coins) : fromVecUnchecked c.toVec = c := by
  have hnd : (c.map.entries.reverse.map Prod.fst).Nodup := by
    rw [List.map_reverse, List.nodup_reverse]
    exact c.map.ascending.nodup_keys
  ext1 d
  rw [fromVecUnchecked, ← pairs, pairs_toVec, BTreeMap.ofList, BTreeMap.get_foldl_insert,
    BTreeMap.get_empty, Option.or_none, lookupEntry_eq_of_perm (List.reverse_perm _) hnd]
  rfl

theorem NonZero.accepts_toVec {c : Coins} (h : c.NonZero) : Accepts BTreeMap.empty c.toVec := by
  refine (accepts_empty_iff _).mpr ⟨fun x hx => ?_, ?_⟩
  · obtain ⟨e, he, rfl⟩ := List.mem_map.mp hx
    exact h e he
  · rw [← pairs_keys, pairs_toVec]
    exact c.map.ascending.nodup_keys

theorem NonZero.collected_toVec {c : Coins} (h : c.NonZero) :
    collected BTreeMap.empty c.toVec = c := by
  ext1 k
  rw [get_collected h.accepts_toVec, pairs_toVec, BTreeMap.get_empty, Option.or_none]
  rfl

theorem mem_serialize (c : Coins) (x : Coin) :
    x ∈ c.serialize ↔ c.map.get x.denom = some x.amount := by
  rw [← c.map.mem_entries]
  exact ⟨fun hx => by obtain ⟨e, he, rfl⟩ := List.mem_map.mp hx; exact he,
    fun h => List.mem_map.mpr ⟨_, h, rfl⟩⟩

theorem serialize_keys (c : Coins) : c.serialize.map Coin.denom = c.map.entries.map Prod.fst := by
  simp [serialize]

/-- The encoding of decoded coins is the accepted list sorted strictly by denom. -/
theorem collected_serialize {v : List Coin} (h : Accepts BTreeMap.empty v) :
    (collected BTreeMap.empty v).serialize.Perm v ∧
      (collected BTreeMap.empty v).serialize.Pairwise (fun a b => a.denom < b.denom) := by
  refine ⟨(List.perm_ext_iff_of_nodup ?_ ?_).mpr fun x => ?_,
    List.pairwise_map.mpr (collected BTreeMap.empty v).map.ascending⟩
  · exact List.Nodup.of_map Coin.denom (by rw [serialize_keys]; exact BTreeMap.ascending _ |>.nodup_keys)
  · exact List.Nodup.of_map Coin.denom h.2.1
  · rw [mem_serialize, get_collected h, BTreeMap.get_empty, Option.or_none,
      ← mem_iff_lookupEntry (by rw [pairs_keys]; exact h.2.1), mem_pairs]

/-- Encoding then decoding gives back every value without zero records, through either decoder;
and whatever a decoder accepts encodes as the accepted coins sorted strictly by denom. -/
theorem coins_codec_roundtrip :
    (∀ c : Coins, c.NonZero → visitSeq (c.serialize.map .ok) = .ok c ∧ tryFrom c.toVec = .ok c) ∧
    ∀ (v : List Coin) (c : Coins), (visitSeq (v.map .ok) = .ok c ∨ tryFrom v = .ok c) →
      c.serialize.Perm v ∧ c.serialize.Pairwise (fun a b => a.denom < b.denom) := by
  refine ⟨fun c h => ⟨?_, ?_⟩, fun v c hc => ?_⟩
  · exact (collect_ok_iff _ _ _ c.toVec c).mpr ⟨h.accepts_toVec, h.collected_toVec.symm⟩
  · exact (collect_ok_iff _ _ _ c.toVec c).mpr ⟨h.accepts_toVec, h.collected_toVec.symm⟩
  · obtain ⟨ha, rfl⟩ : Accepts BTreeMap.empty v ∧ c = collected BTreeMap.empty v := by
      rcases hc with hc | hc
      · exact (collect_ok_iff _ _ _ v c).mp hc
      · exact (collect_ok_iff _ _ _ v c).mp hc
    exact collected_serialize ha

/-- `try_from` and `visit_seq` fail and succeed together, succeed exactly on non-zero amounts with
distinct denoms, and then both return the map from each denom of the list to its amount, the
same for every reordering of the list. -/
theorem tryFrom_visitSeq_agree (v : List Coin) :
    (tryFrom v).isOk = (visitSeq (v.map .ok)).isOk ∧
    ((tryFrom v).isOk = true ↔ (∀ x ∈ v, x.amount.val ≠ 0) ∧ (v.map Coin.denom).Nodup) ∧
    ∀ c, tryFrom v = .ok c →
      visitSeq (v.map .ok) = .ok c ∧ (∀ d, c.map.get d = lookupEntry d (pairs v)) ∧
      ∀ w, w.Perm v → tryFrom w = .ok c ∧ visitSeq (w.map .ok) = .ok c := by
  have hT := collect_isOk_iff (fun denom => StdError.parseCoins ("denom `" ++ denom ++ "` as zero amount"))
    (fun _ => .parseCoins "duplicate denom found") BTreeMap.empty v
  have hV := collect_isOk_iff (fun _ => "Coin amount is zero") (fun _ => "Duplicate denom found")
    BTreeMap.empty v
  refine ⟨Bool.eq_iff_iff.mpr (hT.trans hV.symm), hT.trans (accepts_empty_iff v), fun c hc => ?_⟩
  obtain ⟨ha, rfl⟩ := (collect_ok_iff _ _ _ v c).mp hc
  refine ⟨(collect_ok_iff _ _ _ v _).mpr ⟨ha, rfl⟩,
    fun d => by rw [get_collected ha, BTreeMap.get_empty, Option.or_none], fun w hw => ?_⟩
  rw [← collected_perm ha hw]
  exact ⟨(collect_ok_iff _ _ _ w _).mpr ⟨ha.perm hw, rfl⟩,
    (collect_ok_iff _ _ _ w _).mpr ⟨ha.perm hw, rfl⟩⟩

end Coins

end Grug
