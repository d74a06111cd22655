import Std.Data.ExtTreeMap
import TypedFuse.Core.Types

/-!
# The node table

`Slot`, `NodeTable`, `NodeRef` and the critical sections that `Cx`, `NodeRef::drop` and `Runtime`
perform under the table's mutex (`runtime.rs`).  A function here is one such critical section; a
`none` answer is the panic of an overflowing counter.

`Arc::ptr_eq` on records is modelled by an address that every allocation takes afresh.

Every section but `insert` rewrites one slot and drops it if nothing holds it any more
(`NodeTable.settle`); `settle_map` and `settle_free` say what that does.
-/

namespace TypedFuse

open Std

variable {N : Type}

/-- `Arc<NodeRecord<N>>`: the payload and the address of its allocation. -/
structure NodeRecord (N : Type) where
  ptr : Nat
  payload : N

/-- One inode's entry in the table. -/
structure Slot (N : Type) where
  record : NodeRecord N
  generation : Nat
  links : Nat
  lookups : Nat
  opens : Nat
  leases : Nat
  parent : NodeId

def Slot.droppable (s : Slot N) : Bool :=
  s.links == 0 && s.lookups == 0 && s.opens == 0 && s.leases == 0

theorem Slot.droppable_iff {s : Slot N} :
    s.droppable = true ↔ s.links = 0 ∧ s.lookups = 0 ∧ s.opens = 0 ∧ s.leases = 0 := by
  simp [Slot.droppable, and_assoc]

theorem Slot.held_iff {s : Slot N} :
    s.droppable = false ↔ s.links ≠ 0 ∨ s.lookups ≠ 0 ∨ s.opens ≠ 0 ∨ s.leases ≠ 0 := by
  rw [← Bool.not_eq_true, Slot.droppable_iff]
  omega

/-- A shared node lease. -/
structure NodeRef (N : Type) where
  id : NodeId
  record : NodeRecord N

/-- The identity of a lease, without the payload. -/
structure Lease where
  id : NodeId
  ptr : Nat
deriving DecidableEq, Repr

def NodeRef.lease (r : NodeRef N) : Lease := ⟨r.id, r.record.ptr⟩

structure NodeTable (N : Type) where
  map : ExtTreeMap Nat (Slot N)
  nextIno : Nat
  /-- The free vector, last element first. -/
  free : List (Nat × Nat)
  nextPtr : Nat

namespace NodeTable

def new : NodeTable N where
  map := ∅
  nextIno := 2
  free := []
  nextPtr := 0

def put (t : NodeTable N) (ino : Nat) (slot : Slot N) : NodeTable N :=
  { t with map := t.map.insert ino slot }

/-- `alloc`: a recycled pair, or the next inode number with generation zero. -/
def alloc (t : NodeTable N) : Option ((Nat × Nat) × NodeTable N) :=
  match t.free with
  | pair :: rest => some (pair, { t with free := rest })
  | [] => (checkedAdd 64 t.nextIno).map fun next => ((t.nextIno, 0), { t with nextIno := next })

def maybeDrop (t : NodeTable N) (id : NodeId) : NodeTable N :=
  match t.map[id]? with
  | some slot =>
    if slot.droppable then
      { t with map := t.map.erase id, free := (id, (slot.generation + 1) % 2 ^ 64) :: t.free }
    else t
  | none => t

/-! ## `Cx` -/

def get (t : NodeTable N) (id : NodeId) : Option (Option (NodeRef N)) × NodeTable N :=
  match t.map[id]? with
  | none => (some none, t)
  | some slot =>
    match checkedAdd 32 slot.leases with
    | some n => (some (some ⟨id, slot.record⟩), t.put id { slot with leases := n })
    | none => (none, t)

def contains (t : NodeTable N) (id : NodeId) : Bool := t.map.contains id

/-- The slot `insert` builds. -/
def freshSlot (ptr generation : Nat) (payload : N) (parent : NodeId) : Slot N where
  record := ⟨ptr, payload⟩
  generation := generation
  links := 1
  lookups := 0
  opens := 0
  leases := 0
  parent := parent

def insert (t : NodeTable N) (payload : N) (parent : NodeId) : Option NodeId × NodeTable N :=
  match t.alloc with
  | some ((ino, generation), t') =>
    (some ino, { t' with
      map := t'.map.insert ino (freshSlot t'.nextPtr generation payload parent)
      nextPtr := t'.nextPtr + 1 })
  | none => (none, t)

def reparent (t : NodeTable N) (id newParent : NodeId) : NodeTable N :=
  match t.map[id]? with
  | none => t
  | some slot => t.put id { slot with parent := newParent }

def addLink (t : NodeTable N) (id : NodeId) : Option Unit × NodeTable N :=
  match t.map[id]? with
  | none => (some (), t)
  | some slot =>
    match checkedAdd 32 slot.links with
    | some n => (some (), t.put id { slot with links := n })
    | none => (none, t)

def removeLink (t : NodeTable N) (id : NodeId) : NodeTable N :=
  match t.map[id]? with
  | none => t.maybeDrop id
  | some slot => (t.put id { slot with links := slot.links - 1 }).maybeDrop id

/-! ## `NodeRef::drop` -/

def dropRef (t : NodeTable N) (r : Lease) : NodeTable N :=
  match t.map[r.id]? with
  | none => t.maybeDrop r.id
  | some slot =>
    if slot.record.ptr = r.ptr then
      (t.put r.id { slot with leases := slot.leases - 1 }).maybeDrop r.id
    else t.maybeDrop r.id

/-! ## `Runtime` -/

/-- The table `Runtime::new` starts from. -/
def withRoot (root : N) : NodeTable N :=
  { (new : NodeTable N) with
    map := (∅ : ExtTreeMap Nat (Slot N)).insert NodeId.root (freshSlot 0 0 root NodeId.root)
    nextPtr := 1 }

/-- The last section of `entry_for`, and `retain_lookup`: one more lookup, and the generation. -/
def retainLookup (t : NodeTable N) (id : NodeId) : Option (Option Nat) × NodeTable N :=
  match t.map[id]? with
  | none => (some none, t)
  | some slot =>
    match checkedAdd 64 slot.lookups with
    | some n => (some (some slot.generation), t.put id { slot with lookups := n })
    | none => (none, t)

/-- What `plus_entry` reads. -/
def generationOf (t : NodeTable N) (id : NodeId) : Option Nat :=
  t.map[id]?.map Slot.generation

/-- What `readdir` and `readdirplus` read for `..`. -/
def parentOf (t : NodeTable N) (ino : Nat) : Option NodeId :=
  t.map[ino]?.map Slot.parent

/-- The first section of `forget`: nothing if the inode is gone, else the lease it takes when the
count reaches zero.  A lease count that overflows panics after the subtraction. -/
def beginForget (t : NodeTable N) (ino nlookup : Nat) :
    Option (Option (Option (NodeRef N))) × NodeTable N :=
  match t.map[ino]? with
  | none => (some none, t)
  | some slot =>
    let slot' := { slot with lookups := slot.lookups - nlookup }
    if slot.lookups ≠ 0 ∧ slot'.lookups = 0 then
      match checkedAdd 32 slot.leases with
      | some n => (some (some (some ⟨ino, slot.record⟩)), t.put ino { slot' with leases := n })
      | none => (none, t.put ino slot')
    else (some (some none), t.put ino slot')

/-- `add_open`; `false` is its `ENOENT`. -/
def addOpen (t : NodeTable N) (ino : Nat) : Option Bool × NodeTable N :=
  match t.map[ino]? with
  | none => (some false, t)
  | some slot =>
    match checkedAdd 32 slot.opens with
    | some n => (some true, t.put ino { slot with opens := n })
    | none => (none, t)

def removeOpen (t : NodeTable N) (ino : Nat) : NodeTable N :=
  match t.map[ino]? with
  | none => t.maybeDrop ino
  | some slot => (t.put ino { slot with opens := slot.opens - 1 }).maybeDrop ino

/-- What `optional_file` asks before it scans. -/
def hasOpens (t : NodeTable N) (ino : Nat) : Bool :=
  t.map[ino]?.any fun slot => 0 < slot.opens

/-! ## One rewritten slot -/

variable {t : NodeTable N} {ino k : Nat} {slot : Slot N}

theorem put_map : (t.put ino slot).map[k]? = if ino = k then some slot else t.map[k]? := by
  simp [put, ExtTreeMap.getElem?_insert]

@[simp] theorem put_free : (t.put ino slot).free = t.free := rfl

@[simp] theorem put_nextIno : (t.put ino slot).nextIno = t.nextIno := rfl

/-- Rewrite one slot and drop it if nothing holds it. -/
def settle (t : NodeTable N) (ino : Nat) (slot : Slot N) : NodeTable N :=
  (t.put ino slot).maybeDrop ino

theorem settle_map : (t.settle ino slot).map[k]? =
    if ino = k then (if slot.droppable then none else some slot) else t.map[k]? := by
  unfold settle maybeDrop
  simp only [put_map, ↓reduceIte]
  split
  · simp only [put, ExtTreeMap.getElem?_erase, ExtTreeMap.getElem?_insert,
      LawfulEqCmp.compare_eq_iff_eq]
    split <;> rfl
  · exact put_map

theorem settle_free : (t.settle ino slot).free =
    if slot.droppable then (ino, (slot.generation + 1) % 2 ^ 64) :: t.free else t.free := by
  unfold settle maybeDrop
  simp only [put_map, ↓reduceIte]
  split <;> rfl

@[simp] theorem settle_nextIno : (t.settle ino slot).nextIno = t.nextIno := by
  unfold settle maybeDrop
  simp only [put_map, ↓reduceIte]
  split <;> rfl

/-- A slot something holds is only rewritten. -/
theorem settle_eq_put (held : slot.droppable = false) : t.settle ino slot = t.put ino slot := by
  unfold settle maybeDrop
  simp [put_map, held]

/-! ## What each section does to a tidy table -/

/-- Every slot in the table is held by something. -/
def Tidy (t : NodeTable N) : Prop :=
  ∀ (ino : Nat) (slot : Slot N), t.map[ino]? = some slot → slot.droppable = false

theorem maybeDrop_of_tidy (tidy : t.Tidy) (id : NodeId) : t.maybeDrop id = t := by
  unfold maybeDrop
  split
  · rename_i slot live
    simp [tidy id slot live]
  · rfl

theorem Tidy.settle (tidy : t.Tidy) : (t.settle ino slot).Tidy := by
  intro k s live
  rw [settle_map] at live
  split at live
  · split at live
    · cases live
    · cases live
      simpa using ‹¬slot.droppable = true›
  · exact tidy k s live

theorem alloc_cases (t : NodeTable N) :
    t.alloc = none ∨
      (∃ pair rest, t.free = pair :: rest ∧ t.alloc = some (pair, { t with free := rest })) ∨
      (t.free = [] ∧ t.alloc = some ((t.nextIno, 0), { t with nextIno := t.nextIno + 1 })) := by
  cases free : t.free with
  | cons pair rest => exact .inr (.inl ⟨pair, rest, rfl, by simp only [alloc, free]⟩)
  | nil =>
      cases add : checkedAdd 64 t.nextIno with
      | none => exact .inl (by simp only [alloc, free, add, Option.map_none])
      | some n =>
          cases checkedAdd_eq_some add
          exact .inr (.inr ⟨rfl, by simp only [alloc, free, add, Option.map_some]⟩)

theorem insert_eq_none {payload : N} {parent : NodeId} {t' : NodeTable N}
    (h : t.insert payload parent = (none, t')) : t' = t := by
  unfold insert at h
  split at h <;> cases h
  rfl

theorem insert_eq_some {payload : N} {parent id : NodeId} {t' : NodeTable N}
    (h : t.insert payload parent = (some id, t')) :
    ∃ generation t₁, t.alloc = some ((id, generation), t₁) ∧ t' = { t₁ with
      map := t₁.map.insert id (freshSlot t₁.nextPtr generation payload parent)
      nextPtr := t₁.nextPtr + 1 } := by
  unfold insert at h
  split at h
  · rename_i ino generation t₁ alloc
    cases h
    exact ⟨generation, t₁, alloc, rfl⟩
  · cases h

theorem get_cases (t : NodeTable N) (id : NodeId) :
    (t.map[id]? = none ∧ t.get id = (some none, t)) ∨ t.get id = (none, t) ∨
      ∃ slot, t.map[id]? = some slot ∧ t.get id =
        (some (some ⟨id, slot.record⟩), t.settle id { slot with leases := slot.leases + 1 }) := by
  cases live : t.map[id]? with
  | none => exact .inl ⟨rfl, by simp only [get, live]⟩
  | some slot =>
      cases add : checkedAdd 32 slot.leases with
      | none => exact .inr (.inl (by simp only [get, live, add]))
      | some n =>
          cases checkedAdd_eq_some add
          refine .inr (.inr ⟨slot, rfl, ?_⟩)
          rw [settle_eq_put (by simp [Slot.droppable])]
          simp only [get, live, add]

theorem reparent_cases (tidy : t.Tidy) (id newParent : NodeId) :
    (t.map[id]? = none ∧ t.reparent id newParent = t) ∨
      ∃ slot, t.map[id]? = some slot ∧
        t.reparent id newParent = t.settle id { slot with parent := newParent } := by
  cases live : t.map[id]? with
  | none => exact .inl ⟨rfl, by simp only [reparent, live]⟩
  | some slot =>
      have held : ({ slot with parent := newParent } : Slot N).droppable = false :=
        tidy id slot live
      refine .inr ⟨slot, rfl, ?_⟩
      rw [settle_eq_put held]
      simp only [reparent, live]

theorem addLink_cases (t : NodeTable N) (id : NodeId) :
    (t.map[id]? = none ∧ t.addLink id = (some (), t)) ∨ t.addLink id = (none, t) ∨
      ∃ slot, t.map[id]? = some slot ∧
        t.addLink id = (some (), t.settle id { slot with links := slot.links + 1 }) := by
  cases live : t.map[id]? with
  | none => exact .inl ⟨rfl, by simp only [addLink, live]⟩
  | some slot =>
      cases add : checkedAdd 32 slot.links with
      | none => exact .inr (.inl (by simp only [addLink, live, add]))
      | some n =>
          cases checkedAdd_eq_some add
          refine .inr (.inr ⟨slot, rfl, ?_⟩)
          rw [settle_eq_put (by simp [Slot.droppable])]
          simp only [addLink, live, add]

theorem removeLink_cases (tidy : t.Tidy) (id : NodeId) :
    (t.map[id]? = none ∧ t.removeLink id = t) ∨
      ∃ slot, t.map[id]? = some slot ∧
        t.removeLink id = t.settle id { slot with links := slot.links - 1 } := by
  unfold removeLink
  cases live : t.map[id]? with
  | none => exact .inl ⟨rfl, maybeDrop_of_tidy tidy id⟩
  | some slot => exact .inr ⟨slot, rfl, rfl⟩

theorem dropRef_cases (tidy : t.Tidy) (r : Lease) :
    t.dropRef r = t ∨ ∃ slot, t.map[r.id]? = some slot ∧ slot.record.ptr = r.ptr ∧
      t.dropRef r = t.settle r.id { slot with leases := slot.leases - 1 } := by
  unfold dropRef
  cases live : t.map[r.id]? with
  | none => exact .inl (maybeDrop_of_tidy tidy r.id)
  | some slot =>
      by_cases same : slot.record.ptr = r.ptr
      · exact .inr ⟨slot, rfl, same, if_pos same⟩
      · exact .inl ((if_neg same).trans (maybeDrop_of_tidy tidy r.id))

/-- A lease on the record its slot still holds gives that count back. -/
theorem dropRef_eq {r : Lease} (live : t.map[r.id]? = some slot) (same : slot.record.ptr = r.ptr) :
    t.dropRef r = t.settle r.id { slot with leases := slot.leases - 1 } := by
  unfold dropRef
  rw [live]
  exact if_pos same

theorem retainLookup_cases (t : NodeTable N) (id : NodeId) :
    (t.map[id]? = none ∧ t.retainLookup id = (some none, t)) ∨ t.retainLookup id = (none, t) ∨
      ∃ slot, t.map[id]? = some slot ∧ t.retainLookup id =
        (some (some slot.generation), t.settle id { slot with lookups := slot.lookups + 1 }) := by
  cases live : t.map[id]? with
  | none => exact .inl ⟨rfl, by simp only [retainLookup, live]⟩
  | some slot =>
      cases add : checkedAdd 64 slot.lookups with
      | none => exact .inr (.inl (by simp only [retainLookup, live, add]))
      | some n =>
          cases checkedAdd_eq_some add
          refine .inr (.inr ⟨slot, rfl, ?_⟩)
          rw [settle_eq_put (by simp [Slot.droppable])]
          simp only [retainLookup, live, add]

theorem addOpen_cases (t : NodeTable N) (ino : Nat) :
    (t.map[ino]? = none ∧ t.addOpen ino = (some false, t)) ∨ t.addOpen ino = (none, t) ∨
      ∃ slot, t.map[ino]? = some slot ∧
        t.addOpen ino = (some true, t.settle ino { slot with opens := slot.opens + 1 }) := by
  cases live : t.map[ino]? with
  | none => exact .inl ⟨rfl, by simp only [addOpen, live]⟩
  | some slot =>
      cases add : checkedAdd 32 slot.opens with
      | none => exact .inr (.inl (by simp only [addOpen, live, add]))
      | some n =>
          cases checkedAdd_eq_some add
          refine .inr (.inr ⟨slot, rfl, ?_⟩)
          rw [settle_eq_put (by simp [Slot.droppable])]
          simp only [addOpen, live, add]

theorem removeOpen_cases (tidy : t.Tidy) (ino : Nat) :
    (t.map[ino]? = none ∧ t.removeOpen ino = t) ∨
      ∃ slot, t.map[ino]? = some slot ∧
        t.removeOpen ino = t.settle ino { slot with opens := slot.opens - 1 } := by
  unfold removeOpen
  cases live : t.map[ino]? with
  | none => exact .inl ⟨rfl, maybeDrop_of_tidy tidy ino⟩
  | some slot => exact .inr ⟨slot, rfl, rfl⟩

/-- The first section of `forget` either takes a lease in exchange for the last lookup, or leaves
the slot held by what held it before. -/
theorem beginForget_cases (tidy : t.Tidy) (ino nlookup : Nat) :
    (t.map[ino]? = none ∧ t.beginForget ino nlookup = (some none, t)) ∨
    ∃ slot, t.map[ino]? = some slot ∧
      ((0 < slot.lookups ∧ slot.lookups ≤ nlookup ∧ t.beginForget ino nlookup =
          (some (some (some ⟨ino, slot.record⟩)),
            t.settle ino { slot with lookups := 0, leases := slot.leases + 1 })) ∨
        (t.beginForget ino nlookup =
          (none, t.settle ino { slot with lookups := slot.lookups - nlookup })) ∨
        ((slot.lookups = 0 ∨ nlookup < slot.lookups) ∧ t.beginForget ino nlookup =
          (some (some none), t.settle ino { slot with lookups := slot.lookups - nlookup }))) := by
  unfold beginForget
  cases live : t.map[ino]? with
  | none => exact .inl ⟨rfl, rfl⟩
  | some slot =>
      refine .inr ⟨slot, rfl, ?_⟩
      by_cases last : slot.lookups ≠ 0 ∧ slot.lookups - nlookup = 0
      · simp only [last, ↓reduceIte, and_self, ne_eq, not_false_eq_true]
        cases add : checkedAdd 32 slot.leases with
        | none =>
            have held : ({ slot with lookups := 0 } : Slot N).droppable = false := by
              refine Slot.held_iff.mpr (.inr (.inr (.inr fun zero => ?_)))
              simp [checkedAdd, show slot.leases = 0 from zero] at add
            rw [settle_eq_put held]
            exact .inr (.inl rfl)
        | some n =>
            cases checkedAdd_eq_some add
            rw [settle_eq_put (by simp [Slot.droppable])]
            exact .inl ⟨by omega, by omega, rfl⟩
      · have held : ({ slot with lookups := slot.lookups - nlookup } : Slot N).droppable = false := by
          have := Slot.held_iff.mp (tidy ino slot live)
          rw [Slot.held_iff]
          dsimp only
          omega
        simp only [last, ↓reduceIte]
        rw [settle_eq_put held]
        exact .inr (.inr ⟨by omega, rfl⟩)

end NodeTable

end TypedFuse
