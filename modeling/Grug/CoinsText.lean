import Grug.CoinsCodec
import Mathlib.Data.Nat.Digits

namespace Grug

/-- `str::split` on a character, with the characters of the current piece kept in reverse. -/
def splitAux (sep : Char) : List Char → List Char → List String
  | [], piece => [String.mk piece.reverse]
  | c :: cs, piece =>
    if c = sep then String.mk piece.reverse :: splitAux sep cs [] else splitAux sep cs (c :: piece)

/-- `str::split` on a character: the pieces between separators, `[""]` for the empty text. -/
def split (s : String) (sep : Char) : List String := splitAux sep s.toList []

def splitOnceAux (sep : Char) : List Char → Option (List Char × List Char)
  | [] => none
  | c :: cs => if c = sep then some ([], cs) else (splitOnceAux sep cs).map fun p => (c :: p.1, p.2)

/-- `str::split_once` on a character: the text before and after its first occurrence. -/
def splitOnce (s : String) (sep : Char) : Option (String × String) :=
  (splitOnceAux sep s.toList).map fun p => (String.mk p.1, String.mk p.2)

@[simp] theorem mk_toList (s : String) : String.mk s.toList = s := rfl

theorem splitAux_of_not_mem {sep : Char} {l : List Char} (h : sep ∉ l) (rest piece : List Char) :
    splitAux sep (l ++ rest) piece = splitAux sep rest (l.reverse ++ piece) := by
  induction l generalizing piece with
  | nil => rfl
  | cons c l ih =>
    have hc : c ≠ sep := fun hc => h (hc ▸ List.mem_cons_self c l)
    rw [List.cons_append, splitAux, if_neg hc, ih (fun hm => h (List.mem_cons_of_mem c hm))]
    simp

/-- Splitting pieces joined by a separator they do not contain gives the pieces back. -/
theorem splitAux_join {sep : Char} (qs : List String) (hq : ∀ q ∈ qs, sep ∉ q.toList)
    (p : List Char) (hp : sep ∉ p) (piece : List Char) :
    splitAux sep (p ++ (qs.map fun q => sep :: q.toList).flatten) piece =
      String.mk (piece.reverse ++ p) :: qs := by
  induction qs generalizing p piece with
  | nil =>
    rw [List.map_nil, List.flatten_nil, splitAux_of_not_mem hp [] piece]
    simp [splitAux]
  | cons q qs ih =>
    rw [List.map_cons, List.flatten_cons, splitAux_of_not_mem hp, List.cons_append, splitAux,
      if_pos rfl, ih (fun q' hq' => hq q' (List.mem_cons_of_mem q hq')) q.toList
        (hq q (List.mem_cons_self q qs))]
    simp

theorem splitOnceAux_append {sep : Char} {l : List Char} (h : sep ∉ l) (rest : List Char) :
    splitOnceAux sep (l ++ sep :: rest) = some (l, rest) := by
  induction l with
  | nil => simp [splitOnceAux]
  | cons c l ih =>
    have hc : c ≠ sep := fun hc => h (hc ▸ List.mem_cons_self c l)
    simp [splitOnceAux, hc, ih (fun hm => h (List.mem_cons_of_mem c hm))]

theorem splitAux_ne_nil (sep : Char) (l piece : List Char) : splitAux sep l piece ≠ [] := by
  induction l generalizing piece with
  | nil => simp [splitAux]
  | cons c cs ih =>
    rw [splitAux]
    split
    · simp
    · exact ih _

/-- No piece of a split holds the separator. -/
theorem splitAux_pieces {sep : Char} (l : List Char) {piece : List Char} (hp : sep ∉ piece) :
    ∀ q ∈ splitAux sep l piece, sep ∉ q.toList := by
  induction l generalizing piece with
  | nil => simpa [splitAux] using hp
  | cons c cs ih =>
    rw [splitAux]
    split
    · simpa [hp] using ih (List.not_mem_nil sep)
    · exact ih (by simp [hp, Ne.symm ‹¬c = sep›])

theorem splitOnceAux_eq_some {sep : Char} {l a b : List Char} (h : splitOnceAux sep l = some (a, b)) :
    l = a ++ sep :: b ∧ sep ∉ a := by
  induction l generalizing a b with
  | nil => cases h
  | cons c cs ih =>
    rw [splitOnceAux] at h
    split at h
    · next hc =>
      cases h
      exact ⟨by rw [hc]; rfl, List.not_mem_nil _⟩
    · next hc =>
      obtain ⟨⟨a', b'⟩, hs, he⟩ := Option.map_eq_some'.mp h
      cases he
      obtain ⟨rfl, hn⟩ := ih hs
      exact ⟨rfl, by simp [hn, Ne.symm hc]⟩

namespace Uint128

def digitValue (c : Char) : Nat := c.toNat - '0'.toNat

/-- The value of a decimal numeral, most significant digit first. -/
def decimalValue (cs : List Char) : Nat := cs.foldl (fun n c => 10 * n + digitValue c) 0

/-- `Display for Uint128`: the decimal numeral of the value. -/
def toString (a : Uint128) : String := Nat.repr a.val

/-- The text after a leading `+`, if there is one. -/
def stripPlus : List Char → List Char
  | '+' :: rest => rest
  | cs => cs

/-- Modelled from the spec: `Uint128::from_str`, parsing as Rust parses a `u128`: an optional `+`,
then one or more decimal digits, of a value at most `Uint128::MAX`. -/
def fromStr (s : String) : Option Uint128 :=
  let digits := stripPlus s.toList
  if digits ≠ [] ∧ digits.all Char.isDigit then
    if h : decimalValue digits < 2 ^ 128 then some ⟨decimalValue digits, h⟩ else none
  else none

theorem digitChar_digit : ∀ d < 10, digitValue (Nat.digitChar d) = d ∧ (Nat.digitChar d).isDigit := by
  decide

theorem toDigitsCore_append (fuel n : Nat) (ds : List Char) :
    Nat.toDigitsCore 10 fuel n ds = Nat.toDigitsCore 10 fuel n [] ++ ds := by
  induction fuel generalizing n ds with
  | zero => rfl
  | succ fuel ih =>
    simp only [Nat.toDigitsCore]
    split
    · rfl
    · rw [ih _ (_ :: ds), ih _ [_]]
      simp

theorem toDigitsCore_spec (fuel n : Nat) (h : n < fuel) :
    decimalValue (Nat.toDigitsCore 10 fuel n []) = n ∧
      ∀ c ∈ Nat.toDigitsCore 10 fuel n [], c.isDigit := by
  induction fuel generalizing n with
  | zero => omega
  | succ fuel ih =>
    have hd := digitChar_digit (n % 10) (Nat.mod_lt n (by omega))
    simp only [Nat.toDigitsCore]
    split
    · refine ⟨?_, by simpa using hd.2⟩
      simp [decimalValue, hd.1]
      omega
    · rw [toDigitsCore_append]
      obtain ⟨hv, hdig⟩ := ih (n / 10) (by omega)
      refine ⟨?_, by simpa using fun c hc => hc.elim (hdig c) (fun h => h ▸ hd.2)⟩
      simp only [decimalValue, List.foldl_append, List.foldl_cons, List.foldl_nil] at hv ⊢
      rw [hv, hd.1]
      omega

theorem toDigits_ne_nil (n : Nat) : Nat.toDigits 10 n ≠ [] := by
  rw [Nat.toDigits, Nat.toDigitsCore]
  split
  · simp
  · rw [toDigitsCore_append]
    simp

theorem toString_isDigit (a : Uint128) : ∀ c ∈ a.toString.toList, c.isDigit :=
  (toDigitsCore_spec (a.val + 1) a.val (by omega)).2

theorem stripPlus_of_isDigit {cs : List Char} (h : ∀ c ∈ cs, c.isDigit) : stripPlus cs = cs := by
  unfold stripPlus
  split
  · exact absurd (h '+' (List.mem_cons_self _ _)) (by decide)
  · rfl

theorem fromStr_toString (a : Uint128) : fromStr a.toString = some a := by
  obtain ⟨hv, hdig⟩ := toDigitsCore_spec (a.val + 1) a.val (by omega)
  have hs : stripPlus a.toString.toList = Nat.toDigitsCore 10 (a.val + 1) a.val [] :=
    stripPlus_of_isDigit (toString_isDigit a)
  have hne : Nat.toDigitsCore 10 (a.val + 1) a.val [] ≠ [] := toDigits_ne_nil a.val
  simp only [fromStr, hs, hv, a.isLt, List.all_eq_true.mpr hdig, and_true, if_pos hne, dif_pos]

end Uint128

theorem intercalate_go_toList (acc : String) (l : List String) :
    (String.intercalate.go acc "," l).toList = acc.toList ++ (l.map fun b => ',' :: b.toList).flatten := by
  induction l generalizing acc with
  | nil => simp [String.intercalate.go]
  | cons b l ih =>
    rw [String.intercalate.go, ih]
    simp [String.toList]

namespace Coins

/-- `Display for Coins`: each record as `denom:amount`, joined with `,`. -/
def toString (self : Coins) : String :=
  ",".intercalate (self.map.entries.map fun e => e.1 ++ ":" ++ e.2.toString)

/-- The first two checks `FromStr` makes of one piece: its `denom:amount` shape, then its
amount. -/
def parseCoin (coinStr : String) : StdResult Coin :=
  match splitOnce coinStr ':' with
  | none => .error (.parseCoins
      ("invalid coin `" ++ coinStr ++ "`: must be in the format {denom}:{amount}"))
  | some (denom, amountStr) =>
    match Uint128.fromStr amountStr with
    | none => .error (.parseCoins ("invalid amount `" ++ amountStr ++ "`"))
    | some amount => .ok ⟨denom, amount⟩

/-- A parsed coin's denom is the piece's text before its first `:`. -/
theorem parseCoin_denom {p : String} {x : Coin} (h : parseCoin p = .ok x) :
    ':' ∉ x.denom.toList ∧ ∀ ch ∉ p.toList, ch ∉ x.denom.toList := by
  unfold parseCoin splitOnce at h
  split at h
  · cases h
  · next denom amountStr hs =>
    obtain ⟨⟨a, b⟩, hab, he⟩ := Option.map_eq_some'.mp hs
    simp only [Prod.mk.injEq] at he
    obtain ⟨rfl, rfl⟩ := he
    split at h
    · cases h
    · cases h
      obtain ⟨hl, hn⟩ := splitOnceAux_eq_some hab
      exact ⟨hn, fun ch hch hm => hch (by rw [hl]; exact List.mem_append_left _ hm)⟩

/-- The loop of `FromStr for Coins` over the comma-separated pieces; unlike `collect` it asks
`contains_key` before inserting. -/
def fromStrLoop (map : BTreeMap String Uint128) : List String → StdResult Coins
  | [] => .ok ⟨map⟩
  | coinStr :: rest =>
    match parseCoin coinStr with
    | .error e => .error e
    | .ok ⟨denom, amount⟩ =>
      if amount.isZero then .error (.parseCoins ("denom `" ++ denom ++ "` as zero amount"))
      else if map.containsKey denom then .error (.parseCoins ("duplicate denom: " ++ denom))
      else fromStrLoop (map.insert denom amount).2 rest

/-- `FromStr for Coins`: `denom1:amount1,...,denomN:amountN`, in any order. -/
def fromStr (s : String) : StdResult Coins := fromStrLoop BTreeMap.empty (split s ',')

/-- `from_str` is the decoding loop of `try_from` and `visit_seq` run over the parsed pieces,
with its own messages. -/
theorem fromStrLoop_eq_collect (m : BTreeMap String Uint128) (pieces : List String) :
    fromStrLoop m pieces =
      collect (fun denom => .parseCoins ("denom `" ++ denom ++ "` as zero amount"))
        (fun denom => .parseCoins ("duplicate denom: " ++ denom)) m (pieces.map parseCoin) := by
  induction pieces generalizing m with
  | nil => rfl
  | cons p rest ih =>
    cases hp : parseCoin p with
    | error e => simp [fromStrLoop, collect, hp]
    | ok coin => simp [fromStrLoop, collect_ok_cons, hp, BTreeMap.containsKey, ih]

/-- `from_str` succeeds exactly when its pieces parse to coins that the decoding loop accepts, and
then returns them inserted in order. -/
theorem fromStr_eq_ok {s : String} {c : Coins} :
    fromStr s = .ok c ↔ ∃ v : List Coin, (split s ',').map parseCoin = v.map .ok ∧
      Accepts BTreeMap.empty v ∧ c = collected BTreeMap.empty v := by
  rw [fromStr, fromStrLoop_eq_collect]
  constructor
  · intro h
    obtain ⟨v, hv⟩ := collect_eq_ok_map h
    rw [hv, collect_ok_iff] at h
    exact ⟨v, hv, h⟩
  · rintro ⟨v, hv, hacc⟩
    rw [hv, collect_ok_iff]
    exact hacc

/-- `from_str` succeeds exactly when every comma-separated piece parses to a coin, the amounts are
non-zero and the denoms distinct, and it then maps each denom to its amount; so the pieces may come
in any order, and every reordering of them gives the same value. -/
theorem fromStr_ok_iff (s : String) (c : Coins) :
    (fromStr s = .ok c ↔ ∃ v : List Coin, (split s ',').map parseCoin = v.map .ok ∧
      (∀ x ∈ v, x.amount.val ≠ 0) ∧ (v.map Coin.denom).Nodup ∧
      ∀ d, c.map.get d = lookupEntry d (pairs v)) ∧
    (fromStr s = .ok c → ∀ t, (split t ',').Perm (split s ',') → fromStr t = .ok c) := by
  refine ⟨fromStr_eq_ok.trans (exists_congr fun v => and_congr_right fun _ => ?_), fun h t ht => ?_⟩
  · rw [and_assoc.symm, ← accepts_empty_iff]
    refine and_congr_right fun hacc => ⟨fun hc d => by rw [hc, get_collected hacc]; simp, fun hd => ?_⟩
    ext1 d
    rw [hd, get_collected hacc]
    simp
  · obtain ⟨v, hv, hacc, rfl⟩ := fromStr_eq_ok.mp h
    have hp := ht.map parseCoin
    rw [hv] at hp
    obtain ⟨w, hw, hwv⟩ := exists_perm_of_perm_map_ok hp
    exact fromStr_eq_ok.mpr ⟨w, hwv, hacc.perm hw, (collected_perm hacc hw).symm⟩

theorem split_intercalate {l : List String} (hl : l ≠ []) (h : ∀ s ∈ l, ',' ∉ s.toList) :
    split (",".intercalate l) ',' = l := by
  obtain ⟨p, qs, rfl⟩ := List.exists_cons_of_ne_nil hl
  rw [split, String.intercalate, intercalate_go_toList,
    splitAux_join qs (fun q hq => h q (List.mem_cons_of_mem p hq)) _ (h p (List.mem_cons_self p qs))]
  rfl

/-- `Display` output parses back for values with at least one record, no zero record, and no
denom containing `,` or `:`. -/
theorem fromStr_toString {c : Coins} (h : c.NonZero) (hne : c.isEmpty = false)
    (hd : ∀ e ∈ c.map.entries, ',' ∉ e.1.toList ∧ ':' ∉ e.1.toList) :
    fromStr c.toString = .ok c := by
  have hrec : ∀ e : String × Uint128,
      (e.1 ++ ":" ++ e.2.toString).toList = e.1.toList ++ ':' :: e.2.toString.toList :=
    fun e => by simp [String.toList]
  have hsplit : split c.toString ',' = c.map.entries.map fun e => e.1 ++ ":" ++ e.2.toString := by
    refine split_intercalate (by simpa [isEmpty, BTreeMap.isEmpty] using hne) fun s hs => ?_
    obtain ⟨e, he, rfl⟩ := List.mem_map.mp hs
    rw [hrec e, List.mem_append, List.mem_cons]
    rintro (hm | hm | hm)
    · exact (hd e he).1 hm
    · exact absurd hm (by decide)
    · exact absurd (Uint128.toString_isDigit e.2 ',' hm) (by decide)
  have hparse : (c.map.entries.map fun e => e.1 ++ ":" ++ e.2.toString).map parseCoin =
      c.toVec.map .ok := by
    rw [List.map_map, toVec, List.map_map]
    refine List.map_congr_left fun e he => ?_
    simp only [Function.comp_apply, parseCoin, splitOnce, hrec e, splitOnceAux_append (hd e he).2,
      Option.map_some', mk_toList, Uint128.fromStr_toString]
  rw [fromStr, hsplit, fromStrLoop_eq_collect, hparse]
  exact (collect_ok_iff _ _ _ _ _).mpr ⟨h.accepts_toVec, h.collected_toVec.symm⟩

/-- Every value `from_str` accepts prints, through `Display`, as a text that `from_str` parses
back to the same value: the printed form is a normal form of the texts it accepts. -/
theorem fromStr_toString_fromStr {s : String} {c : Coins} (h : fromStr s = .ok c) :
    fromStr c.toString = .ok c := by
  obtain ⟨v, hv, hacc, rfl⟩ := fromStr_eq_ok.mp h
  have hsrc : ∀ x ∈ v, ∃ p ∈ split s ',', parseCoin p = .ok x := fun x hx =>
    List.mem_map.mp (hv ▸ List.mem_map_of_mem _ hx)
  refine fromStr_toString (fun e he => ?_) ?_ fun e he => ?_
  · obtain ⟨x, hx, -, ha⟩ := mem_entries_collected hacc he
    exact ha ▸ hacc.1 x hx
  · obtain ⟨x, rest, rfl⟩ : ∃ x rest, v = x :: rest := by
      cases v with
      | nil => exact absurd (List.map_eq_nil_iff.mp hv) (splitAux_ne_nil _ _ _)
      | cons x rest => exact ⟨x, rest, rfl⟩
    refine Bool.eq_false_iff.mpr fun hne => ?_
    have := (BTreeMap.isEmpty_iff _).mp hne x.denom
    rw [get_collected hacc] at this
    simp [pairs, lookupEntry] at this
  · obtain ⟨x, hx, hd, -⟩ := mem_entries_collected hacc he
    obtain ⟨p, hp, hpx⟩ := hsrc x hx
    rw [← hd]
    exact ⟨(parseCoin_denom hpx).2 ',' (splitAux_pieces _ (List.not_mem_nil _) p hp),
      (parseCoin_denom hpx).1⟩

theorem fromStr_toString_fromStr_uatom :
    fromStr "uatom:5" = .ok (fromCoin ⟨"uatom", ⟨5, by decide⟩⟩) ∧
      fromStr (fromCoin ⟨"uatom", ⟨5, by decide⟩⟩).toString = .ok (fromCoin ⟨"uatom", ⟨5, by decide⟩⟩) :=
  have h : fromStr "uatom:5" = .ok (fromCoin ⟨"uatom", ⟨5, by decide⟩⟩) := rfl
  ⟨h, fromStr_toString_fromStr h⟩

/-- The empty value prints as the empty text, which splits into one empty piece with no `:`. -/
theorem fromStr_toString_empty :
    fromStr empty.toString =
      .error (.parseCoins "invalid coin ``: must be in the format {denom}:{amount}") := rfl

end Coins

end Grug
