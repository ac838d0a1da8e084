import StarCache.Foundation.Ring
import StarCache.Utils.HandleTable
import StarCache.Utils.LruHistory

/-!
# The LRU container on the heap

The container as the program has it: handles at addresses that `malloc` chooses and reuses, the
idle list threaded through `next` and `prev` behind a dummy head, the chains of the hash table,
and counters of fixed width. A call has no outcome when it would read a handle that has been
freed, follow a null pointer or fail a `DCHECK`. The mutex of a container covers a whole call
but for the freeing of entries that nothing refers to any more.
-/

namespace StarCache

open MachineInt

/-- The dummy head `_lru`, and the handles. -/
inductive Node
  | lru
  | handle (e : Nat)
deriving DecidableEq

/-- What a handle holds beside its key, its hash and its pointers. -/
structure HandleFields where
  charge : Nat
  valid : Bool
  refs : Nat

structure LRUShard (K : Type) where
  table : HandleTable K
  cells : Cells Node
  fields : Nat → HandleFields
  usage : Nat
  lookupCount : Nat
  /-- The keys that deleters were called with, latest first. -/
  deleted : List K

namespace HandleTable

variable {K : Type}

/-- The handles from one link of a chain on. -/
def chainFrom (t : HandleTable K) : Nat → Option Nat → List Nat
  | 0, _ => []
  | _, none => []
  | fuel + 1, some e => e :: t.chainFrom fuel (t.nextHash e)

/-- The handles that some chain leads to. -/
def chained (t : HandleTable K) : List Nat :=
  (List.range t.length).flatMap fun i => t.chainFrom t.elems (t.list i)

end HandleTable

namespace LRUShard

variable {K : Type} [DecidableEq K]

/-- `key()`: it would take the key of a handle that is its own successor from `value`. -/
def readKey (s : LRUShard K) (e : Nat) : Option K :=
  match s.cells (.handle e) with
  | none => none
  | some links => if links.next = some (.handle e) then none else some (s.table.key e)

/-- A call of the table may read every handle of its chains. -/
def chainsReadable (s : LRUShard K) : Bool := s.table.chained.all fun e => (s.readKey e).isSome

def tableLookup (s : LRUShard K) (key : K) (hash : Nat) : Option (Option Nat) :=
  if s.chainsReadable then s.table.lookup key hash else none

def tableInsert (s : LRUShard K) (e : Nat) : Option (Option Nat × LRUShard K) :=
  if s.chainsReadable then (s.table.insert e).map fun r => (r.1, { s with table := r.2 }) else none

def tableRemove (s : LRUShard K) (key : K) (hash : Nat) : Option (Option Nat × LRUShard K) :=
  if s.chainsReadable then (s.table.remove key hash).map fun r => (r.1, { s with table := r.2 })
  else none

def read (s : LRUShard K) (e : Nat) : Option HandleFields :=
  (s.cells (.handle e)).map fun _ => s.fields e

def write (s : LRUShard K) (e : Nat) (h : HandleFields) : LRUShard K :=
  { s with fields := Function.update s.fields e h }

def setValid (s : LRUShard K) (e : Nat) (valid : Bool) : Option (LRUShard K) :=
  (s.read e).map fun h => s.write e { h with valid }

def lruRemove (s : LRUShard K) (e : Nat) : Option (LRUShard K) :=
  (s.cells.unlink (.handle e)).map fun cells => { s with cells }

def lruAppend (s : LRUShard K) (e : Nat) : Option (LRUShard K) :=
  (s.cells.linkBefore .lru (.handle e)).map fun cells => { s with cells }

/-- `_unref`; the answer tells whether this was the last reference. -/
def unref (s : LRUShard K) (e : Nat) : Option (Bool × LRUShard K) :=
  (s.read e).bind fun h =>
    if h.refs = 0 then none
    else some (decide (h.refs - 1 = 0), s.write e { h with refs := h.refs - 1 })

/-- `LRUHandle::free`: the deleter, and then the memory. -/
def free (s : LRUShard K) (e : Nat) : Option (LRUShard K) :=
  (s.readKey e).map fun key =>
    { s with cells := Function.update s.cells (.handle e) none, deleted := key :: s.deleted }

def lessUsage (s : LRUShard K) (charge : Nat) : LRUShard K :=
  { s with usage := u64 (s.usage - charge) }

def lookup (s : LRUShard K) (key : K) (hash : Nat) : Option (Option Nat × LRUShard K) := do
  let s := { s with lookupCount := u64 (s.lookupCount + 1) }
  match ← s.tableLookup key hash with
  | none => some (none, s)
  | some e =>
      let h ← s.read e
      if h.valid = false then none
      else
        -- only in the idle list
        let s ← if h.refs = 1 then s.lruRemove e else some s
        some (some e, s.write e { h with refs := u32 (h.refs + 1) })

def release (s : LRUShard K) (e : Nat) : Option (LRUShard K) := do
  let (last, s) ← s.unref e
  let h ← s.read e
  if last then (s.lessUsage h.charge).free e
  else if h.valid = true ∧ h.refs = 1 then s.lruAppend e
  else some s

/-- The handle `e` that `malloc` returns, with its fields. -/
def allocate (s : LRUShard K) (e : Nat) (key : K) (hash charge : Nat) : LRUShard K :=
  { s with
    cells := Function.update s.cells (.handle e) (some ⟨none, none⟩)
    table := s.table.withHandle e key hash
    fields := Function.update s.fields e { charge, valid := true, refs := 2 } }

/-- `insert`, with the address `e` that `malloc` returns. -/
def insert (s : LRUShard K) (key : K) (hash charge e : Nat) : Option (LRUShard K) := do
  let (old, s) ← (s.allocate e key hash charge).tableInsert e
  let s := { s with usage := u64 (s.usage + charge) }
  match old with
  | none => some s
  | some old =>
      let s ← s.setValid old false
      let (last, s) ← s.unref old
      let h ← s.read old
      if last then
        let s ← (s.lessUsage h.charge).lruRemove old
        s.free old
      else some s

def erase (s : LRUShard K) (key : K) (hash : Nat) : Option (LRUShard K) := do
  let (found, s) ← s.tableRemove key hash
  match found with
  | none => some s
  | some e =>
      let (last, s) ← s.unref e
      let h ← s.read e
      if last then
        let s := s.lessUsage h.charge
        let s ← if h.valid = true then s.lruRemove e else some s
        let s ← s.setValid e false
        s.free e
      else s.setValid e false

def evictOneEntry (s : LRUShard K) (e : Nat) : Option (LRUShard K) := do
  let h ← s.read e
  if h.valid = false ∨ h.refs ≠ 1 then none
  else
    let s ← s.lruRemove e
    let key ← s.readKey e
    let (_, s) ← s.tableRemove key (s.table.hash e)
    let s ← s.setValid e false
    let (_, s) ← s.unref e
    some (s.lessUsage h.charge)

/-- The loop of `_evict_from_lru`. -/
def evictFromLru (charge : Nat) : Nat → Nat → LRUShard K → Option (List Nat × LRUShard K)
  | 0, _, _ => none
  | fuel + 1, evictedSize, s =>
      if evictedSize < charge then
        match s.cells.next .lru with
        | none => none
        | some .lru => some ([], s)
        | some (.handle old) => do
            let s ← s.evictOneEntry old
            let h ← s.read old
            let (evicted, s) ← evictFromLru charge fuel (u64 (evictedSize + h.charge)) s
            some (old :: evicted, s)
      else some ([], s)

def evict (s : LRUShard K) (charge : Nat) : Option (List Nat × LRUShard K) :=
  evictFromLru charge (s.table.elems + 1) 0 s

/-- The loop of `prune`, whose body is `_evict_one_entry` written out. -/
def pruneLoop : Nat → LRUShard K → Option (List Nat × LRUShard K)
  | 0, _ => none
  | fuel + 1, s =>
      match s.cells.next .lru with
      | none => none
      | some .lru => some ([], s)
      | some (.handle old) => do
          let s ← s.evictOneEntry old
          let (lastRefs, s) ← pruneLoop fuel s
          some (old :: lastRefs, s)

def prune (s : LRUShard K) : Option (LRUShard K) := do
  let (lastRefs, s) ← pruneLoop (s.table.elems + 1) s
  lastRefs.foldlM free s

/-- The constructor: an empty ring behind the head. -/
def create [Inhabited K] : Option (LRUShard K) :=
  HandleTable.create.map fun table =>
    { table
      cells := fun p => if p = .lru then some ⟨some .lru, some .lru⟩ else none
      fields := fun _ => ⟨0, false, 0⟩
      usage := 0
      lookupCount := 0
      deleted := [] }

/-- `malloc` has returned the address, and it has not been freed. -/
def Live (s : LRUShard K) (e : Nat) : Prop := (s.cells (.handle e)).isSome

end LRUShard

end StarCache
