import Mathlib.Order.Basic
import Mathlib.Data.List.Sort

namespace Grug

section Entries

variable {K V : Type} [LinearOrder K]

/-- Entries strictly ascending by key, as a `BTreeMap` iterates them. -/
def Ascending (l : List (K × V)) : Prop := l.Pairwise (fun a b => a.1 < b.1)

/-- The value of the first entry with key `k`. -/
def lookupEntry (k : K) : List (K × V) → Option V
  | [] => none
  | e :: rest => if k = e.1 then some e.2 else lookupEntry k rest

/-- Insert at the ascending position of `k`, replacing an entry with key `k`. -/
def insertEntry (k : K) (v : V) : List (K × V) → List (K × V)
  | [] => [(k, v)]
  | e :: rest =>
    if k < e.1 then (k, v) :: e :: rest
    else if k = e.1 then (k, v) :: rest
    else e :: insertEntry k v rest

def removeEntry (k : K) : List (K × V) → List (K × V)
  | [] => []
  | e :: rest => if k = e.1 then rest else e :: removeEntry k rest

theorem lookupEntry_eq_none {k : K} {l : List (K × V)} (h : ∀ e ∈ l, e.1 ≠ k) :
    lookupEntry k l = none := by
  induction l with
  | nil => rfl
  | cons e rest ih =>
    have hk : k ≠ e.1 := fun he => h e (by simp) he.symm
    simp [lookupEntry, hk, ih (fun x hx => h x (by simp [hx]))]

theorem lookupEntry_append (k : K) (l l' : List (K × V)) :
    lookupEntry k (l ++ l') = (lookupEntry k l).or (lookupEntry k l') := by
  induction l with
  | nil => rfl
  | cons e rest ih => by_cases hk : k = e.1 <;> simp [lookupEntry, hk, ih]

theorem lookupEntry_insertEntry (a k : K) (v : V) (l : List (K × V)) :
    lookupEntry a (insertEntry k v l) = if a = k then some v else lookupEntry a l := by
  induction l with
  | nil => simp [insertEntry, lookupEntry]
  | cons e rest ih =>
    obtain ⟨k', w⟩ := e
    by_cases hlt : k < k'
    · simp [insertEntry, hlt, lookupEntry]
    · by_cases heq : k = k'
      · subst heq
        by_cases ha : a = k <;> simp [insertEntry, lookupEntry, ha]
      · by_cases ha : a = k'
        · subst ha
          have hak : ¬a = k := fun h => heq h.symm
          simp [insertEntry, lookupEntry, hlt, heq, hak]
        · simp [insertEntry, lookupEntry, hlt, heq, ha, ih]

theorem mem_insertEntry {k : K} {v : V} {l : List (K × V)} {x : K × V}
    (h : x ∈ insertEntry k v l) : x = (k, v) ∨ x ∈ l := by
  induction l with
  | nil => simpa [insertEntry] using h
  | cons e rest ih =>
    simp only [insertEntry] at h
    split_ifs at h
    · exact List.mem_cons.mp h
    · exact (List.mem_cons.mp h).imp_right (List.mem_cons_of_mem e)
    · rcases List.mem_cons.mp h with rfl | h
      · exact Or.inr (List.mem_cons_self _ _)
      · exact (ih h).imp_right (List.mem_cons_of_mem e)

theorem Ascending.insertEntry {l : List (K × V)} (h : Ascending l) (k : K) (v : V) :
    Ascending (Grug.insertEntry k v l) := by
  induction l with
  | nil => exact List.pairwise_singleton _ _
  | cons e rest ih =>
    obtain ⟨he, hr⟩ := List.pairwise_cons.mp h
    simp only [Grug.insertEntry]
    split_ifs with hlt heq
    · refine List.Pairwise.cons ?_ h
      intro x hx
      rcases List.mem_cons.mp hx with rfl | hx
      · exact hlt
      · exact lt_trans hlt (he x hx)
    · exact List.Pairwise.cons (fun x hx => heq ▸ he x hx) hr
    · refine List.Pairwise.cons ?_ (ih hr)
      intro x hx
      rcases mem_insertEntry hx with rfl | hx
      · exact lt_of_le_of_ne (not_lt.mp hlt) (Ne.symm heq)
      · exact he x hx

theorem removeEntry_sublist (k : K) (l : List (K × V)) : (removeEntry k l).Sublist l := by
  induction l with
  | nil => exact List.Sublist.slnil
  | cons e rest ih =>
    simp only [removeEntry]
    split_ifs
    · exact List.sublist_cons_self e rest
    · exact ih.cons_cons e

theorem Ascending.lookupEntry_removeEntry {l : List (K × V)} (h : Ascending l) (a k : K) :
    lookupEntry a (removeEntry k l) = if a = k then none else lookupEntry a l := by
  induction l with
  | nil => simp [removeEntry, lookupEntry]
  | cons e rest ih =>
    obtain ⟨k', w⟩ := e
    obtain ⟨he, hr⟩ := List.pairwise_cons.mp h
    by_cases hk : k = k'
    · subst hk
      by_cases ha : a = k
      · subst ha
        simpa [removeEntry] using lookupEntry_eq_none (fun x hx => ne_of_gt (he x hx))
      · simp [removeEntry, ha, lookupEntry]
    · by_cases ha : a = k'
      · subst ha
        have hak : ¬a = k := fun h => hk h.symm
        simp [removeEntry, hk, lookupEntry, hak]
      · simp [hk, ha, removeEntry, lookupEntry, ih hr]

/-- In a list with distinct keys, `lookupEntry` finds exactly the entries of the list. -/
theorem mem_iff_lookupEntry {l : List (K × V)} (h : (l.map Prod.fst).Nodup) (k : K) (v : V) :
    (k, v) ∈ l ↔ lookupEntry k l = some v := by
  induction l with
  | nil => simp [lookupEntry]
  | cons e rest ih =>
    obtain ⟨k', w⟩ := e
    obtain ⟨he, hr⟩ := List.nodup_cons.mp h
    by_cases hk : k = k'
    · subst hk
      have hn : (k, v) ∉ rest := fun hm => he (List.mem_map.mpr ⟨(k, v), hm, rfl⟩)
      simp [lookupEntry, hn, eq_comm]
    · simp [lookupEntry, hk, ih hr]

theorem Ascending.nodup_keys {l : List (K × V)} (h : Ascending l) : (l.map Prod.fst).Nodup :=
  List.pairwise_map.mpr (h.imp ne_of_lt)

theorem Ascending.mem_iff {l : List (K × V)} (h : Ascending l) (k : K) (v : V) :
    (k, v) ∈ l ↔ lookupEntry k l = some v :=
  mem_iff_lookupEntry h.nodup_keys k v

theorem lookupEntry_eq_of_perm {l₁ l₂ : List (K × V)} (hp : l₁.Perm l₂)
    (h : (l₁.map Prod.fst).Nodup) (k : K) : lookupEntry k l₁ = lookupEntry k l₂ := by
  have h₂ : (l₂.map Prod.fst).Nodup := ((hp.map Prod.fst).nodup_iff).mp h
  refine Option.ext fun v => ?_
  rw [Option.mem_def, Option.mem_def, ← mem_iff_lookupEntry h, ← mem_iff_lookupEntry h₂,
    hp.mem_iff]

/-- Two ascending entry lists that agree on every key are equal. -/
theorem Ascending.ext {l₁ l₂ : List (K × V)} (h₁ : Ascending l₁) (h₂ : Ascending l₂)
    (h : ∀ k, lookupEntry k l₁ = lookupEntry k l₂) : l₁ = l₂ := by
  have hp : l₁.Perm l₂ := (List.perm_ext_iff_of_nodup (h₁.nodup_keys.of_map _)
    (h₂.nodup_keys.of_map _)).mpr fun ⟨k, v⟩ => by rw [h₁.mem_iff, h₂.mem_iff, h]
  have : IsAntisymm (K × V) (fun a b => a.1 < b.1) :=
    ⟨fun _ _ hab hba => absurd (hab.trans hba) (lt_irrefl _)⟩
  exact List.eq_of_perm_of_sorted hp h₁ h₂

end Entries

/-- Rust's `BTreeMap`: its entries in ascending key order. -/
structure BTreeMap (K V : Type) [LinearOrder K] where
  entries : List (K × V)
  ascending : Ascending entries
deriving DecidableEq

namespace BTreeMap

variable {K V : Type} [LinearOrder K]

/-- `BTreeMap::new`. -/
def empty : BTreeMap K V := ⟨[], List.Pairwise.nil⟩

def get (m : BTreeMap K V) (k : K) : Option V := lookupEntry k m.entries

def containsKey (m : BTreeMap K V) (k : K) : Bool := (m.get k).isSome

/-- `BTreeMap::insert`: the value `k` had, and the map with `k` bound to `v`. -/
def insert (m : BTreeMap K V) (k : K) (v : V) : Option V × BTreeMap K V :=
  (m.get k, ⟨insertEntry k v m.entries, m.ascending.insertEntry k v⟩)

/-- `BTreeMap::remove`, keeping only the map (no caller here reads the removed value). -/
def remove (m : BTreeMap K V) (k : K) : BTreeMap K V :=
  ⟨removeEntry k m.entries, m.ascending.sublist (removeEntry_sublist k _)⟩

def isEmpty (m : BTreeMap K V) : Bool := m.entries.isEmpty

/-- `FromIterator`: the pairs inserted in order, so a later pair wins over an earlier one. -/
def ofList (l : List (K × V)) : BTreeMap K V :=
  l.foldl (fun m e => (m.insert e.1 e.2).2) empty

@[simp] theorem get_empty (k : K) : (empty : BTreeMap K V).get k = none := rfl

@[simp] theorem insert_fst (m : BTreeMap K V) (k : K) (v : V) : (m.insert k v).1 = m.get k := rfl

@[simp] theorem get_insert (m : BTreeMap K V) (a k : K) (v : V) :
    (m.insert k v).2.get a = if a = k then some v else m.get a :=
  lookupEntry_insertEntry a k v m.entries

@[simp] theorem get_remove (m : BTreeMap K V) (a k : K) :
    (m.remove k).get a = if a = k then none else m.get a :=
  m.ascending.lookupEntry_removeEntry a k

@[simp] theorem containsKey_iff (m : BTreeMap K V) (k : K) :
    m.containsKey k = true ↔ ∃ v, m.get k = some v := Option.isSome_iff_exists

theorem mem_entries (m : BTreeMap K V) (k : K) (v : V) : (k, v) ∈ m.entries ↔ m.get k = some v :=
  m.ascending.mem_iff k v

@[ext] theorem ext {m₁ m₂ : BTreeMap K V} (h : ∀ k, m₁.get k = m₂.get k) : m₁ = m₂ := by
  obtain ⟨l₁, h₁⟩ := m₁
  obtain ⟨l₂, h₂⟩ := m₂
  simpa using Ascending.ext h₁ h₂ h

theorem isEmpty_iff (m : BTreeMap K V) : m.isEmpty = true ↔ ∀ k, m.get k = none := by
  obtain ⟨l, hl⟩ := m
  cases l with
  | nil => simp [isEmpty, get, lookupEntry]
  | cons e rest => simpa [isEmpty, get, lookupEntry] using ⟨e.1, by simp⟩

theorem get_foldl_insert (l : List (K × V)) (m : BTreeMap K V) (k : K) :
    (l.foldl (fun m e => (m.insert e.1 e.2).2) m).get k = (lookupEntry k l.reverse).or (m.get k) := by
  induction l generalizing m with
  | nil => simp [lookupEntry]
  | cons e rest ih =>
    rw [List.foldl_cons, ih, List.reverse_cons, lookupEntry_append, Option.or_assoc]
    by_cases hk : k = e.1 <;> simp [lookupEntry, hk]

end BTreeMap

end Grug
