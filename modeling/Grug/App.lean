import Grug.Coins

namespace Grug

abbrev Binary := List UInt8

/-- `VmError`. A variant wrapping an error of another crate keeps that error's text. -/
inductive VmError
  | std (e : StdError)
  | fromUtf8 (msg : String)
  | export_ (msg : String)
  | memoryAccess (msg : String)
  | runtime (msg : String)
  | instantiation (msg : String)
  | wasmerMemoryNotSet
  | wasmerMemoryAlreadySet
  | wasmerInstanceNotSet
  | wasmerInstanceAlreadySet
  | iteratorNotFound (iteratorId : Int)
  | regionTooSmall (offset capacity : Nat) (data : String)
  | returnCount (name : String) (expect actual : Nat)
  | returnType (msg : String)
  /-- Gas ran out while calling an import function. -/
  | outOfGas (msg : String)
  /-- Gas ran out while executing the contract. -/
  | gasDepletion
  | readOnly
deriving DecidableEq

section Types

variable (Addr Hash : Type)

structure BlockInfo where
  height : Nat
  timestamp : Nat
  hash : Hash

structure Account where
  codeHash : Hash
  admin : Option Addr

/-- `Config`, of which the dispatcher reads only the bank's address. -/
structure Config where
  bank : Addr

structure TransferMsg where
  «from» : Addr
  «to» : Addr
  coins : Coins

inductive Message
  | transfer («to» : Addr) (coins : Coins)
  | storeCode (wasmByteCode : Binary)
  | instantiate (codeHash : Hash) (msg salt : Binary) (funds : Coins) (admin : Option Addr)
  | execute (contract : Addr) (msg : Binary) (funds : Coins)

structure Context where
  block : BlockInfo Hash
  contract : Addr
  sender : Option Addr
  simulate : Option Bool

/-- An entry point of a contract, with the message it is called with. -/
inductive EntryPoint
  | transfer (msg : TransferMsg Addr)
  | instantiate (msg : Binary)
  | execute (msg : Binary)

/-- The raw keys and values under one contract's namespace. -/
abbrev Substore := Binary → Option Binary

/-- The store, split by its key prefixes: the `CONFIG` item, the `CODES` and `ACCOUNTS` maps, and
the substore `[CONTRACT_NAMESPACE, address]` of every contract. -/
structure Store where
  config : Option (Config Addr)
  codes : Hash → Option Binary
  accounts : Addr → Option (Account Addr Hash)
  contracts : Addr → Substore

/-- The collaborators outside these sources: the code digest, `Addr::compute`, and the Wasm
runtime behind `Instance`. -/
structure Env where
  hash : Binary → Hash
  compute : Addr → Hash → Binary → Addr
  /-- `Instance::build_from_code`, which compiles the module and can fail. -/
  build : Binary → Except VmError Unit
  /-- One entry point call of an instance built from `code`. The contract reads the whole store
  (through the querier and its own substore) and returns its substore after the call and its
  result: a VM error, or its own `GenericResult`. -/
  call : Binary → Context Addr Hash → EntryPoint Addr → Store Addr Hash →
    Substore × Except VmError (Except String Unit)

/-- `anyhow::Error` as the dispatcher raises it. -/
inductive Error
  | std (e : StdError)
  | vm (e : VmError)
  /-- `code with hash {code_hash} already exists`. -/
  | codeExists (codeHash : Hash)
  /-- `account with the address {address} already exists`. -/
  | accountExists (address : Addr)

/-- A value a log line records, standing for its `to_string()`. -/
inductive LogValue
  | addr (a : Addr)
  | hash (h : Hash)
  | coins (c : Coins)
  | error (e : Error Addr Hash)

inductive Level
  | info
  | warn
deriving DecidableEq

structure LogLine where
  level : Level
  fields : List (String × LogValue Addr Hash)
  message : String

/-- A contract call as a handler makes it: the address of the substore the instance is built
over, the context and the entry point. -/
structure Call where
  address : Addr
  ctx : Context Addr Hash
  entry : EntryPoint Addr

/-- What a handler acts on: the store, and the contract calls and log lines so far. -/
structure Host where
  store : Store Addr Hash
  calls : List (Call Addr Hash)
  logs : List (LogLine Addr Hash)

/-- A handler: from a host, its result and the host it leaves. A failed step keeps what the
steps before it wrote, as the shared store handle does. -/
def Exec (α : Type) : Type := Host Addr Hash → Except (Error Addr Hash) α × Host Addr Hash

end Types

variable {Addr Hash : Type}

namespace Store

variable [DecidableEq Addr] [DecidableEq Hash]

def saveCode (s : Store Addr Hash) (codeHash : Hash) (code : Binary) : Store Addr Hash :=
  { s with codes := Function.update s.codes codeHash (some code) }

def setAccount (s : Store Addr Hash) (address : Addr) (account : Option (Account Addr Hash)) :
    Store Addr Hash :=
  { s with accounts := Function.update s.accounts address account }

def setContract (s : Store Addr Hash) (address : Addr) (sub : Substore) : Store Addr Hash :=
  { s with contracts := Function.update s.contracts address sub }

end Store

namespace Exec

instance : Monad (Exec Addr Hash) where
  pure a h := (.ok a, h)
  bind m f h := match m h with
    | (.ok a, h') => f a h'
    | (.error e, h') => (.error e, h')

instance : MonadLift (Except (Error Addr Hash)) (Exec Addr Hash) where
  monadLift r h := (r, h)

@[simp] theorem pure_apply {α : Type} (a : α) (h : Host Addr Hash) :
    (pure a : Exec Addr Hash α) h = (.ok a, h) := rfl

theorem bind_apply {α β : Type} (m : Exec Addr Hash α) (f : α → Exec Addr Hash β) (h : Host Addr Hash) :
    (m >>= f) h = match m h with
      | (.ok a, h') => f a h'
      | (.error e, h') => (.error e, h') := rfl

theorem bind_ok {α β : Type} {m : Exec Addr Hash α} {f : α → Exec Addr Hash β} {h h' : Host Addr Hash}
    {a : α} (hm : m h = (.ok a, h')) : (m >>= f) h = f a h' := by
  rw [bind_apply, hm]

theorem bind_eq_ok {α β : Type} {m : Exec Addr Hash α} {f : α → Exec Addr Hash β}
    {h h'' : Host Addr Hash} {b : β} (hb : (m >>= f) h = (.ok b, h'')) :
    ∃ a h', m h = (.ok a, h') ∧ f a h' = (.ok b, h'') := by
  rw [bind_apply] at hb
  rcases hm : m h with ⟨_ | a, h'⟩ <;> rw [hm] at hb
  · cases hb
  · exact ⟨a, h', rfl, hb⟩

theorem bind_error {α β : Type} {m : Exec Addr Hash α} {f : α → Exec Addr Hash β}
    {h h' : Host Addr Hash} {e : Error Addr Hash} (hm : m h = (.error e, h')) :
    (m >>= f) h = (.error e, h') := by
  rw [bind_apply, hm]

/-- A storage `load`: the value, or `dataNotFound` with the type's name. -/
def load {α : Type} (ty : String) (read : Store Addr Hash → Option α) : Exec Addr Hash α := fun h =>
  match read h.store with
  | some a => (.ok a, h)
  | none => (.error (.std (.dataNotFound ty)), h)

theorem load_eq_ok {α : Type} {ty : String} {read : Store Addr Hash → Option α} {h h' : Host Addr Hash}
    {a : α} (hl : load ty read h = (.ok a, h')) : read h.store = some a ∧ h' = h := by
  unfold load at hl
  split at hl <;> simp_all

theorem load_of_some {α : Type} (ty : String) (read : Store Addr Hash → Option α)
    {h : Host Addr Hash} {a : α} (hr : read h.store = some a) : load ty read h = (.ok a, h) := by
  simp [load, hr]

theorem load_of_none {α : Type} (ty : String) (read : Store Addr Hash → Option α)
    {h : Host Addr Hash} (hr : read h.store = none) :
    load ty read h = (.error (.std (.dataNotFound ty)), h) := by
  simp [load, hr]

def read {α : Type} (f : Store Addr Hash → α) : Exec Addr Hash α := fun h => (.ok (f h.store), h)

def modifyStore (f : Store Addr Hash → Store Addr Hash) : Exec Addr Hash Unit :=
  fun h => (.ok (), { h with store := f h.store })

def log (line : LogLine Addr Hash) : Exec Addr Hash Unit :=
  fun h => (.ok (), { h with logs := h.logs ++ [line] })

/-- From every host, `m` leaves a host related to it by `R`. -/
def Preserves (R : Host Addr Hash → Host Addr Hash → Prop) {α : Type} (m : Exec Addr Hash α) : Prop :=
  ∀ h, R h (m h).2

section Preserves

variable {R : Host Addr Hash → Host Addr Hash → Prop}

theorem step_bind (trans : ∀ {a b c}, R a b → R b c → R a c) {α β : Type} {m : Exec Addr Hash α}
    {f : α → Exec Addr Hash β} {h : Host Addr Hash} (hm : R h (m h).2)
    (hf : ∀ a h', m h = (.ok a, h') → R h' (f a h').2) : R h ((m >>= f) h).2 := by
  rw [bind_apply]
  rcases hmh : m h with ⟨_ | a, h'⟩ <;> rw [hmh] at hm
  · exact hm
  · exact trans hm (hf a h' hmh)

/-- A load keeps the host: from where it fails `R` holds by reflexivity. -/
theorem step_load (refl : ∀ h, R h h) {α β : Type} {ty : String} {read : Store Addr Hash → Option α}
    {f : α → Exec Addr Hash β} {h : Host Addr Hash} (hf : ∀ a, read h.store = some a → R h (f a h).2) :
    R h ((load ty read >>= f) h).2 := by
  cases hr : read h.store with
  | none => rw [bind_error (load_of_none ty read hr)]; exact refl h
  | some a => rw [bind_ok (load_of_some ty read hr)]; exact hf a hr

theorem Preserves.bind (trans : ∀ {a b c}, R a b → R b c → R a c) {α β : Type}
    {m : Exec Addr Hash α} {f : α → Exec Addr Hash β} (hm : Preserves R m)
    (hf : ∀ a, Preserves R (f a)) : Preserves R (m >>= f) :=
  fun h => step_bind (R := R) trans (hm h) fun a h' _ => hf a h'

theorem Preserves.ite {α : Type} {c : Prop} [Decidable c] {a b : Exec Addr Hash α}
    (ha : Preserves R a) (hb : Preserves R b) : Preserves R (if c then a else b) := by
  split <;> assumption

theorem Preserves.pure (refl : ∀ h, R h h) {α : Type} (a : α) : Preserves R (pure a : Exec Addr Hash α) :=
  refl

theorem Preserves.load (refl : ∀ h, R h h) {α : Type} (ty : String)
    (read : Store Addr Hash → Option α) : Preserves R (Exec.load ty read) := by
  intro h
  unfold Exec.load
  split <;> exact refl h

end Preserves

end Exec

/-- `anyhow::ensure!`. -/
def ensure (b : Bool) (e : Error Addr Hash) : Except (Error Addr Hash) Unit :=
  if b then .ok () else .error e

end Grug
