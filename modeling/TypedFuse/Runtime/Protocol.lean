import Mathlib.Algebra.Group.InjSurj
import Mathlib.Algebra.Group.Prod
import TypedFuse.Lib.Pool
import TypedFuse.Runtime.Requests

/-!
# What requests owe

`Holdings` is what a thread of the runtime has in hand between two critical sections: node leases,
lookups it has counted and not yet handed out, opens it has counted and not (or no longer) listed,
and on each map of the handle table leases and records it is about to close.  `protocol` is the
invariant over the world and all holdings in circulation, and there is one lemma for each operation
that says what the operation asks for and gives.

`strict` says that the lookups of a slot are exactly the lookups in circulation.  That holds only
while nobody forgets more than he was given; the other parts hold regardless.
-/

namespace TypedFuse

open Std Prog NodeTable

/-- Holdings on one map of the handle table. -/
@[ext] structure Grip where
  leases : Multiset Nat := 0
  removed : Multiset Nat := 0
  draining : Multiset Nat := 0

namespace Grip

instance : Zero Grip := ⟨{}⟩

instance : Add Grip :=
  ⟨fun a b => ⟨a.leases + b.leases, a.removed + b.removed, a.draining + b.draining⟩⟩

instance : SMul ℕ Grip := ⟨fun n a => ⟨n • a.leases, n • a.removed, n • a.draining⟩⟩

def toTuple (a : Grip) : Multiset Nat × Multiset Nat × Multiset Nat :=
  (a.leases, a.removed, a.draining)

theorem toTuple_injective : Function.Injective toTuple := by
  rintro ⟨a, b, c⟩ ⟨d, e, f⟩ h
  simp only [toTuple, Prod.mk.injEq] at h
  obtain ⟨rfl, rfl, rfl⟩ := h
  rfl

instance : AddCommMonoid Grip :=
  Function.Injective.addCommMonoid toTuple toTuple_injective rfl (fun _ _ => rfl) fun _ _ => rfl

@[simp] theorem add_leases (a b : Grip) : (a + b).leases = a.leases + b.leases := rfl
@[simp] theorem add_removed (a b : Grip) : (a + b).removed = a.removed + b.removed := rfl
@[simp] theorem add_draining (a b : Grip) : (a + b).draining = a.draining + b.draining := rfl
@[simp] theorem zero_leases : (0 : Grip).leases = 0 := rfl
@[simp] theorem zero_removed : (0 : Grip).removed = 0 := rfl
@[simp] theorem zero_draining : (0 : Grip).draining = 0 := rfl

end Grip

/-- What a thread has in hand. -/
@[ext] structure Holdings where
  refs : Multiset Lease := 0
  lookups : Multiset NodeId := 0
  opens : Multiset NodeId := 0
  files : Grip := 0
  dirs : Grip := 0

namespace Holdings

instance : Zero Holdings := ⟨{}⟩

instance : Add Holdings :=
  ⟨fun a b => ⟨a.refs + b.refs, a.lookups + b.lookups, a.opens + b.opens, a.files + b.files,
    a.dirs + b.dirs⟩⟩

instance : SMul ℕ Holdings :=
  ⟨fun n a => ⟨n • a.refs, n • a.lookups, n • a.opens, n • a.files, n • a.dirs⟩⟩

def toTuple (a : Holdings) : Multiset Lease × Multiset NodeId × Multiset NodeId × Grip × Grip :=
  (a.refs, a.lookups, a.opens, a.files, a.dirs)

theorem toTuple_injective : Function.Injective toTuple := by
  rintro ⟨a, b, c, d, e⟩ ⟨a', b', c', d', e'⟩ h
  simp only [toTuple, Prod.mk.injEq] at h
  obtain ⟨rfl, rfl, rfl, rfl, rfl⟩ := h
  rfl

instance : AddCommMonoid Holdings :=
  Function.Injective.addCommMonoid toTuple toTuple_injective rfl (fun _ _ => rfl) fun _ _ => rfl

@[simp] theorem add_refs (a b : Holdings) : (a + b).refs = a.refs + b.refs := rfl
@[simp] theorem add_lookups (a b : Holdings) : (a + b).lookups = a.lookups + b.lookups := rfl
@[simp] theorem add_opens (a b : Holdings) : (a + b).opens = a.opens + b.opens := rfl
@[simp] theorem add_files (a b : Holdings) : (a + b).files = a.files + b.files := rfl
@[simp] theorem add_dirs (a b : Holdings) : (a + b).dirs = a.dirs + b.dirs := rfl
@[simp] theorem zero_refs : (0 : Holdings).refs = 0 := rfl
@[simp] theorem zero_lookups : (0 : Holdings).lookups = 0 := rfl
@[simp] theorem zero_opens : (0 : Holdings).opens = 0 := rfl
@[simp] theorem zero_files : (0 : Holdings).files = 0 := rfl
@[simp] theorem zero_dirs : (0 : Holdings).dirs = 0 := rfl

/-- A node lease. -/
def ref (l : Lease) : Holdings := { refs := {l} }

/-- Lookups counted. -/
def looked (ids : Multiset NodeId) : Holdings := { lookups := ids }

/-- An open counted without a listed record. -/
def opened (ino : NodeId) : Holdings := { opens := {ino} }

end Holdings

variable {K : FsTypes} {X : Machine K.Ext}

/-- The lookups of every slot are those in circulation. -/
structure NodeTable.Counted {N : Type} (t : NodeTable N) (lookups : Multiset NodeId) : Prop where
  count : ∀ (ino : Nat) (slot : Slot N), t.map[ino]? = some slot →
    slot.lookups = lookups.count ino
  live : ∀ ino ∈ lookups, ∃ slot : Slot N, t.map[ino]? = some slot

/-- The invariant of a runtime with the holdings `T` in circulation. -/
structure World.Inv (strict : Prop) (w : World K X.State) (T : Holdings) : Prop where
  held : w.table.Held (T.refs + w.kept)
    (T.opens + (w.handles.files.nodes + w.handles.dirs.nodes))
  numbered : ∃ given, w.table.Numbered given
  files : w.handles.files.Sound T.files.leases T.files.removed T.files.draining w.handles.nextFh
  dirs : w.handles.dirs.Sound T.dirs.leases T.dirs.removed T.dirs.draining w.handles.nextFh
  apart : ∀ (fh : Nat) (r : HandleRecord K.Handle), w.handles.files.records[fh]? = some r → w.handles.dirs.records[fh]? = none
  counted : strict → w.table.Counted T.lookups

/-- The record a payload is taken from is closed and has not been emptied. -/
def Handles.Closed {P : Type} (h : Handles P) (fh : Nat) : Prop :=
  ∃ r : HandleRecord P, h.records[fh]? = some r ∧ r.closing = true ∧ r.taken = false

/-- The record a lease is given back to has a lease. -/
def Handles.Leased {P : Type} (h : Handles P) (fh : Nat) : Prop :=
  ∃ r : HandleRecord P, h.records[fh]? = some r ∧ 0 < r.active

/-- What a section on one map of the handle table may rely on when it starts. -/
def Handles.Guard {P : Type} : HandleOp → Handles P → Prop
  | .take fh, h => h.Closed fh
  | .unlease fh, h => h.Leased fh
  | _, _ => True

/-- What a request may rely on when an operation starts. -/
def World.Guard : RtOp K → World K X.State → Prop
  | .file o, w => w.handles.files.Guard o
  | .dir o, w => w.handles.dirs.Guard o
  | _, _ => True

def protocol (X : Machine K.Ext) (strict : Prop) : Protocol (runtime X) Holdings :=
  ⟨World.Inv strict, World.Guard⟩

/-! ## Lookup counts -/

namespace NodeTable.Counted

variable {N : Type} {t t' : NodeTable N} {lookups lookups' : Multiset NodeId} {ino : Nat}
  {slot slot' : Slot N}

theorem settle (counted : t.Counted lookups)
    (own : slot'.lookups = lookups'.count ino)
    (others : ∀ k, k ≠ ino → lookups'.count k = lookups.count k) :
    (t.settle ino slot').Counted lookups' where
  count k s hs := by
    rw [settle_map] at hs
    split at hs
    · rename_i same
      subst same
      split at hs
      · cases hs
      · cases hs
        exact own
    · rename_i other
      rw [others k (Ne.symm other)]
      exact counted.count k s hs
  live k mem := by
    by_cases same : ino = k
    · subst same
      have keep : slot'.droppable = false := by
        refine Slot.held_iff.mpr (.inr (.inl ?_))
        rw [own]
        exact (Multiset.count_pos.mpr mem).ne'
      exact ⟨slot', by rw [settle_map, if_pos rfl, keep]; rfl⟩
    · have old : k ∈ lookups := by
        rw [← Multiset.count_pos, ← others k (Ne.symm same)]
        exact Multiset.count_pos.mpr mem
      obtain ⟨s, hs⟩ := counted.live k old
      exact ⟨s, by rw [settle_map, if_neg same, hs]⟩

theorem rewrite (counted : t.Counted lookups) (live : t.map[ino]? = some slot)
    (same : slot'.lookups = slot.lookups) : (t.settle ino slot').Counted lookups :=
  counted.settle (same.trans (counted.count ino slot live)) fun _ _ => rfl

theorem insert (counted : t.Counted lookups) {given : List (Nat × Nat)} (num : t.Numbered given)
    {payload : N} {parent id : NodeId} (insert : t.insert payload parent = (some id, t')) :
    t'.Counted lookups := by
  obtain ⟨dead, generation, map⟩ := num.insert_map insert
  have none : lookups.count id = 0 := by
    refine Multiset.count_eq_zero.mpr fun mem => ?_
    obtain ⟨s, live⟩ := counted.live id mem
    rw [dead] at live
    cases live
  constructor
  case count =>
      intro k s live
      rw [map] at live
      split at live
      · rename_i same
        cases live
        rw [← same, none]
        rfl
      · exact counted.count k s live
  case live =>
      intro k mem
      obtain ⟨s, live⟩ := counted.live k mem
      refine ⟨s, ?_⟩
      rw [map, if_neg (fun same => by rw [same, live] at dead; cases dead), live]

end NodeTable.Counted

/-! ## The node table -/

namespace World.Inv

variable {strict : Prop} {w w' : World K X.State} {T T' F : Holdings} {ino : Nat}
  {slot slot' : Slot K.Node}

/-- Rewriting a slot without touching what is counted in circulation. -/
theorem rewrite (inv : Inv strict w T) (live : w.table.map[ino]? = some slot)
    (record : slot'.record = slot.record) (leases : slot'.leases = slot.leases)
    (opens : slot'.opens = slot.opens) (generation : slot'.generation = slot.generation)
    (lookups : slot'.lookups = slot.lookups) :
    Inv strict { w with table := w.table.settle ino slot' } T :=
  { inv with
    held := inv.held.rewrite live record leases opens
    numbered := inv.numbered.imp fun _ num => num.settle live generation
    counted := fun s => (inv.counted s).rewrite live lookups }

/-- Another table and other leases kept, with what then is in circulation. -/
theorem onTable (inv : Inv strict w T) {t : NodeTable K.Node} {kept : Multiset Lease}
    (held : t.Held (T'.refs + kept)
      (T'.opens + (w.handles.files.nodes + w.handles.dirs.nodes)))
    (numbered : ∃ given, t.Numbered given) (counted : strict → t.Counted T'.lookups)
    (files : T'.files = T.files) (dirs : T'.dirs = T.dirs) :
    Inv strict { w with table := t, kept } T' where
  held := held
  numbered := numbered
  files := files ▸ inv.files
  dirs := dirs ▸ inv.dirs
  apart := inv.apart
  counted := counted

/-- A lease more, wherever it goes. -/
theorem addLease (inv : Inv strict w T) {kept : Multiset Lease}
    (live : w.table.map[ino]? = some slot) (record : slot'.record = slot.record)
    (leases : slot'.leases = slot.leases + 1) (opens : slot'.opens = slot.opens)
    (generation : slot'.generation = slot.generation)
    (counted : strict → (w.table.settle ino slot').Counted T'.lookups)
    (refs : T'.refs + kept = ⟨ino, slot.record.ptr⟩ ::ₘ (T.refs + w.kept))
    (same : T'.opens = T.opens) (files : T'.files = T.files) (dirs : T'.dirs = T.dirs) :
    Inv strict { w with table := w.table.settle ino slot', kept } T' := by
  refine inv.onTable ?_ (inv.numbered.imp fun _ num => num.settle live generation) counted
    files dirs
  rw [refs, same]
  exact inv.held.addLease live record leases opens

theorem get (inv : Inv strict w T) (id : NodeId) :
    Inv strict { w with table := (w.table.get id).2 }
      ({ refs := taken (w.table.get id).1.join } + T) := by
  rcases get_cases w.table id with ⟨-, eq⟩ | eq | ⟨slot, live, eq⟩
  · rw [eq]
    show Inv strict w ((0 : Holdings) + T)
    rwa [zero_add]
  · rw [eq]
    show Inv strict w ((0 : Holdings) + T)
    rwa [zero_add]
  · rw [eq]
    exact inv.addLease live rfl rfl rfl rfl
      (fun s => (inv.counted s).settle ((inv.counted s).count id slot live ▸ by simp) (by simp))
      (by simp [NodeRef.lease]) (by simp) (by simp) (by simp)

theorem cxGet (inv : Inv strict w T) (id : NodeId) :
    Inv strict { w with
      table := (w.table.get id).2
      kept := taken (w.table.get id).1.join + w.kept } T := by
  rcases get_cases w.table id with ⟨-, eq⟩ | eq | ⟨slot, live, eq⟩
  · rw [eq]
    show Inv strict { w with kept := 0 + w.kept } T
    rwa [zero_add]
  · rw [eq]
    show Inv strict { w with kept := 0 + w.kept } T
    rwa [zero_add]
  · rw [eq]
    exact inv.addLease live rfl rfl rfl rfl (fun s => (inv.counted s).rewrite live rfl)
      (by simp [NodeRef.lease]) rfl rfl rfl

/-- A lease less. -/
theorem dropLease (inv : Inv strict w T) {l : Lease} {kept : Multiset Lease}
    (refs : T.refs + w.kept = l ::ₘ (T'.refs + kept)) (opens : T'.opens = T.opens)
    (lookups : T'.lookups = T.lookups) (files : T'.files = T.files) (dirs : T'.dirs = T.dirs) :
    Inv strict { w with table := w.table.dropRef l, kept } T' := by
  have held := inv.held
  rw [refs] at held
  obtain ⟨slot, live, ptr⟩ := held.refs l (Multiset.mem_cons_self l _)
  refine inv.onTable (opens ▸ held.dropLease) ?_ ?_ files dirs
  · rw [dropRef_eq live ptr]
    exact inv.numbered.imp fun _ num => num.settle live rfl
  · intro s
    rw [dropRef_eq live ptr, lookups]
    exact (inv.counted s).rewrite live rfl

theorem dropRef {l : Lease} (inv : Inv strict w (.ref l + T)) :
    Inv strict { w with table := w.table.dropRef l } T :=
  inv.dropLease (by simp [Holdings.ref]) (by simp [Holdings.ref]) (by simp [Holdings.ref])
    (by simp [Holdings.ref]) (by simp [Holdings.ref])

theorem cxDrop (inv : Inv strict w T) {l : Lease} (mem : l ∈ w.kept) :
    Inv strict { w with table := w.table.dropRef l, kept := w.kept.erase l } T := by
  refine inv.dropLease ?_ rfl rfl rfl rfl
  rw [← Multiset.add_cons, Multiset.cons_erase mem]

theorem insert (inv : Inv strict w T) (payload : K.Node) (parent : NodeId) :
    Inv strict { w with table := (w.table.insert payload parent).2 } T := by
  obtain ⟨given, num⟩ := inv.numbered
  cases eq : w.table.insert payload parent with
  | mk id t =>
      cases id with
      | none =>
          have same : t = w.table := by
            unfold NodeTable.insert at eq
            split at eq
            · cases eq
            · exact (Prod.mk.inj eq).2.symm
          subst same
          exact inv
      | some id =>
          obtain ⟨-, generation, map⟩ := num.insert_map eq
          have gen : t.generationOf id = some generation := by
            simp [generationOf, map, freshSlot]
          exact inv.onTable (inv.held.insert num eq) ⟨_, num.insert eq gen⟩
            (fun s => (inv.counted s).insert num eq) rfl rfl

theorem reparent (inv : Inv strict w T) (id newParent : NodeId) :
    Inv strict { w with table := w.table.reparent id newParent } T := by
  rcases reparent_cases inv.held.tidy id newParent with ⟨-, eq⟩ | ⟨slot, live, eq⟩
  · rwa [eq]
  · rw [eq]
    exact inv.rewrite live rfl rfl rfl rfl rfl

theorem addLink (inv : Inv strict w T) (id : NodeId) :
    Inv strict { w with table := (w.table.addLink id).2 } T := by
  rcases addLink_cases w.table id with ⟨-, eq⟩ | eq | ⟨slot, live, eq⟩
  · rwa [eq]
  · rwa [eq]
  · rw [eq]
    exact inv.rewrite live rfl rfl rfl rfl rfl

theorem removeLink (inv : Inv strict w T) (id : NodeId) :
    Inv strict { w with table := w.table.removeLink id } T := by
  rcases removeLink_cases inv.held.tidy id with ⟨-, eq⟩ | ⟨slot, live, eq⟩
  · rwa [eq]
  · rw [eq]
    exact inv.rewrite live rfl rfl rfl rfl rfl

/-- One more lookup, if the slot is there. -/
theorem retainLookup (inv : Inv strict w T) (id : NodeId) :
    Inv strict { w with table := (w.table.retainLookup id).2 }
      (.looked ((w.table.retainLookup id).1.join.elim 0 fun _ => {id}) + T) := by
  rcases retainLookup_cases w.table id with ⟨-, eq⟩ | eq | ⟨slot, live, eq⟩
  · rw [eq]
    show Inv strict w ((0 : Holdings) + T)
    rwa [zero_add]
  · rw [eq]
    show Inv strict w ((0 : Holdings) + T)
    rwa [zero_add]
  · rw [eq]
    have held : (w.table.settle id { slot with lookups := slot.lookups + 1 }).Held _ _ :=
      inv.held.rewrite live rfl rfl rfl
    refine inv.onTable ?_ (inv.numbered.imp fun _ num => num.settle live rfl) ?_ ?_ ?_
    · simpa [Holdings.looked] using held
    · intro s
      refine (inv.counted s).settle ?_ ?_
      · simp [Holdings.looked, (inv.counted s).count id slot live]
      · intro k other
        simp [Holdings.looked, other]
    · simp [Holdings.looked]
    · simp [Holdings.looked]

/-- The lookups forgotten are given back. -/
theorem forgotten {nlookup : Nat} (inv : Inv strict w (.looked (Multiset.replicate nlookup ino) + T))
    (live : w.table.map[ino]? = some slot) :
    Inv strict { w with table := w.table.settle ino { slot with
      lookups := slot.lookups - nlookup } } T ∧
    (strict → slot.lookups = nlookup + T.lookups.count ino) := by
  have own : strict → slot.lookups = nlookup + T.lookups.count ino := fun s => by
    simpa [Holdings.looked] using (inv.counted s).count ino slot live
  have held : (w.table.settle ino { slot with lookups := slot.lookups - nlookup }).Held _ _ :=
    inv.held.rewrite live rfl rfl rfl
  refine ⟨inv.onTable (by simpa [Holdings.looked] using held)
    (inv.numbered.imp fun _ num => num.settle live rfl) (fun s => ?_) (by simp [Holdings.looked])
    (by simp [Holdings.looked]), own⟩
  refine (inv.counted s).settle ?_ fun k other => ?_
  · have := own s
    dsimp only
    omega
  · simp [Holdings.looked, Multiset.count_replicate, other.symm]

/-- The first section of `forget` exchanges the last lookup for a lease. -/
theorem beginForget {nlookup : Nat}
    (inv : Inv strict w (.looked (Multiset.replicate nlookup ino) + T)) :
    Inv strict { w with table := (w.table.beginForget ino nlookup).2 }
      ({ refs := taken (w.table.beginForget ino nlookup).1.join.join } + T) := by
  rcases beginForget_cases inv.held.tidy ino nlookup with
    ⟨dead, eq⟩ | ⟨slot, live, ⟨-, le, eq⟩ | eq | ⟨-, eq⟩⟩
  · rw [eq]
    show Inv strict w ((0 : Holdings) + T)
    rw [zero_add]
    refine inv.onTable (by simpa [Holdings.looked] using inv.held) inv.numbered (fun s => ?_)
      (by simp [Holdings.looked]) (by simp [Holdings.looked])
    have counted := inv.counted s
    simp only [Holdings.looked, Holdings.add_lookups] at counted
    have none : nlookup = 0 := by
      by_contra some
      obtain ⟨slot, live⟩ := counted.live ino (Multiset.mem_add.mpr
        (.inl (Multiset.mem_replicate.mpr ⟨some, rfl⟩)))
      rw [dead] at live
      cases live
    simpa [none] using counted
  · rw [eq]
    have own := (inv.forgotten live).2
    refine inv.addLease live rfl rfl rfl rfl (fun s => ?_)
      (by simp [NodeRef.lease, Holdings.looked]) (by simp [Holdings.looked])
      (by simp [Holdings.looked]) (by simp [Holdings.looked])
    refine (inv.counted s).settle ?_ fun k other => ?_
    · have := own s
      simp only [Holdings.add_lookups, zero_add]
      omega
    · simp [Holdings.looked, Multiset.count_replicate, other.symm]
  · rw [eq]
    show Inv strict { w with table := _ } ((0 : Holdings) + T)
    rw [zero_add]
    exact (inv.forgotten live).1
  · rw [eq]
    show Inv strict { w with table := _ } ((0 : Holdings) + T)
    rw [zero_add]
    exact (inv.forgotten live).1

theorem maybeDrop (inv : Inv strict w T) (id : NodeId) :
    Inv strict { w with table := w.table.maybeDrop id } T := by
  rwa [maybeDrop_of_tidy inv.held.tidy]

theorem addOpen (inv : Inv strict w T) (ino : Nat) :
    Inv strict { w with table := (w.table.addOpen ino).2 }
      ((if (w.table.addOpen ino).1 = some true then .opened ino else 0) + T) := by
  rcases addOpen_cases w.table ino with ⟨-, eq⟩ | eq | ⟨slot, live, eq⟩
  · rw [eq, if_neg (by simp), zero_add]
    exact inv
  · rw [eq, if_neg (by simp), zero_add]
    exact inv
  · rw [eq, if_pos rfl]
    refine inv.onTable ?_ (inv.numbered.imp fun _ num => num.settle live rfl) (fun s => ?_)
      (by simp [Holdings.opened]) (by simp [Holdings.opened])
    · simpa [Holdings.opened] using inv.held.addOpen live
    · refine (inv.counted s).settle ?_ (by simp [Holdings.opened])
      simpa [Holdings.opened] using (inv.counted s).count ino slot live

theorem removeOpen (inv : Inv strict w (.opened ino + T)) :
    Inv strict { w with table := w.table.removeOpen ino } T := by
  have held := inv.held
  simp only [Holdings.opened, Holdings.add_refs, zero_add, Holdings.add_opens,
    Multiset.singleton_add, Multiset.cons_add] at held
  refine inv.onTable held.removeOpen ?_ (fun s => ?_) (by simp [Holdings.opened])
    (by simp [Holdings.opened])
  · rcases removeOpen_cases held.tidy ino with ⟨-, eq⟩ | ⟨slot, live, eq⟩
    · rw [eq]
      exact inv.numbered
    · rw [eq]
      exact inv.numbered.imp fun _ num => num.settle live rfl
  · have counted := inv.counted s
    simp only [Holdings.opened, Holdings.add_lookups, zero_add] at counted
    rcases removeOpen_cases held.tidy ino with ⟨-, eq⟩ | ⟨slot, live, eq⟩
    · rwa [eq]
    · rw [eq]
      exact counted.rewrite live rfl

end World.Inv

/-! ## The handle table -/

/-- What a section on a map of the handle table takes from its thread. -/
def HandleOp.needs : HandleOp → Grip
  | .unlease fh => { leases := {fh} }
  | .close fh => { removed := {fh} }
  | .take fh => { draining := {fh} }
  | _ => 0

/-- What it gives. -/
def HandleOp.gives {P : Type} : (o : HandleOp) → o.Res P → Grip
  | .acquire fh, some (some _) => { leases := {fh} }
  | .scan _, some (some (fh, _)) => { leases := {fh} }
  | .remove _ fh, true => { removed := {fh} }
  | .close fh, _ => { draining := {fh} }
  | _, _ => 0

/-- The node of the record it takes out of the map. -/
def HandleOp.unlists {P : Type} : (o : HandleOp) → o.Res P → Multiset NodeId
  | .remove ino _, true => {ino}
  | _, _ => 0

theorem Handles.step_sound {P : Type} {h h' : Handles P} {o : HandleOp} {r : o.Res P} {g : Grip}
    {nextFh : Nat}
    (sound : h.Sound (o.needs + g).leases (o.needs + g).removed (o.needs + g).draining nextFh)
    (step : h.step o r h') :
    h'.Sound (o.gives r + g).leases (o.gives r + g).removed (o.gives r + g).draining nextFh ∧
      h.nodes = o.unlists r + h'.nodes ∧
      ∀ (fh : Nat) (s : HandleRecord P), h'.records[fh]? = some s →
        ∃ s' : HandleRecord P, h.records[fh]? = some s' := by
  have putKeys : ∀ {fh : Nat} {r r' : HandleRecord P}, h.records[fh]? = some r →
      ∀ (k : Nat) (s : HandleRecord P), (h.put fh r').records[k]? = some s →
        ∃ s' : HandleRecord P, h.records[k]? = some s' := by
    intro fh r r' record k s put
    rw [put_records] at put
    split at put
    · rename_i same
      exact ⟨r, same ▸ record⟩
    · exact ⟨s, put⟩
  have acquired : ∀ {fh : Nat} {payload : P},
      h.Sound g.leases g.removed g.draining nextFh →
      h.acquire fh = (some (some payload), h') →
      h'.Sound (fh ::ₘ g.leases) g.removed g.draining nextFh ∧ h.nodes = 0 + h'.nodes ∧
        ∀ (k : Nat) (s : HandleRecord P), h'.records[k]? = some s →
          ∃ s' : HandleRecord P, h.records[k]? = some s' := by
    intro fh payload sound acquire
    obtain ⟨sound', nodes, r, record, rfl⟩ := sound.acquire acquire
    exact ⟨sound', by rw [nodes, zero_add], putKeys record⟩
  cases o with
  | find fh =>
      obtain ⟨-, rfl⟩ := step
      exact ⟨sound, (zero_add _).symm, fun fh s record => ⟨s, record⟩⟩
  | acquire fh =>
      simp only [HandleOp.needs, zero_add] at sound
      match r, step with
      | none, step =>
          cases acquire_overflow step
          exact ⟨by simpa [HandleOp.gives] using sound, (zero_add _).symm,
            fun fh s record => ⟨s, record⟩⟩
      | some none, step =>
          cases acquire_refused step
          exact ⟨by simpa [HandleOp.gives] using sound, (zero_add _).symm,
            fun fh s record => ⟨s, record⟩⟩
      | some (some payload), step =>
          obtain ⟨sound', nodes, keys⟩ := acquired sound step
          exact ⟨by simpa [HandleOp.gives] using sound', nodes, keys⟩
  | scan ino =>
      simp only [HandleOp.needs, zero_add] at sound
      have step : h.scan ino = (r, h') := step
      unfold Handles.scan at step
      rcases scanFrom_cases ino h.listed.toList.reverse with
        ⟨eq, -⟩ | eq | ⟨fh, payload, h₁, eq, acquire, -⟩
      · rw [eq] at step
        cases step
        exact ⟨by simpa [HandleOp.gives] using sound, (zero_add _).symm,
          fun fh s record => ⟨s, record⟩⟩
      · rw [eq] at step
        cases step
        exact ⟨by simpa [HandleOp.gives] using sound, (zero_add _).symm,
          fun fh s record => ⟨s, record⟩⟩
      · rw [eq] at step
        cases step
        obtain ⟨sound', nodes, keys⟩ := acquired sound acquire
        exact ⟨by simpa [HandleOp.gives] using sound', nodes, keys⟩
  | unlease fh =>
      cases step
      have sound : h.Sound (fh ::ₘ g.leases) g.removed g.draining nextFh := by
        simpa [HandleOp.needs] using sound
      obtain ⟨sound', nodes⟩ := sound.unlease
      obtain ⟨r, record⟩ := sound.leased fh (Multiset.mem_cons_self fh _)
      refine ⟨by simpa [HandleOp.gives] using sound', by rw [nodes]; exact (zero_add _).symm, ?_⟩
      unfold Handles.unlease
      rw [record]
      exact putKeys record
  | remove ino fh =>
      simp only [HandleOp.needs, zero_add] at sound
      match r, step with
      | false, step =>
          cases remove_refused step
          exact ⟨by simpa [HandleOp.gives] using sound, (zero_add _).symm,
            fun fh s record => ⟨s, record⟩⟩
      | true, step =>
          obtain ⟨sound', nodes, -, records, -⟩ := sound.remove step
          exact ⟨by simpa [HandleOp.gives] using sound', nodes,
            fun fh s record => ⟨s, records ▸ record⟩⟩
  | close fh =>
      cases step
      have sound : h.Sound g.leases (fh ::ₘ g.removed) g.draining nextFh := by
        simpa [HandleOp.needs] using sound
      obtain ⟨sound', nodes⟩ := sound.close
      obtain ⟨-, r, record, -⟩ := sound.unlisted fh (by simp)
      refine ⟨by simpa [HandleOp.gives] using sound', by rw [nodes]; exact (zero_add _).symm, ?_⟩
      unfold Handles.close
      rw [record]
      exact putKeys record
  | take fh =>
      have sound : h.Sound g.leases g.removed (fh ::ₘ g.draining) nextFh := by
        simpa [HandleOp.needs] using sound
      obtain ⟨sound', nodes, r, record, rfl⟩ := sound.take step
      exact ⟨by simpa [HandleOp.gives] using sound', by rw [nodes]; exact (zero_add _).symm,
        putKeys record⟩

/-- A record about to be emptied is closed and full, and one about to lose a lease has it. -/
theorem Handles.Sound.guard {P : Type} {h : Handles P} {o : HandleOp} {g : Grip} {nextFh : Nat}
    (sound : h.Sound (o.needs + g).leases (o.needs + g).removed (o.needs + g).draining nextFh) :
    h.Guard o := by
  cases o with
  | take fh =>
      have mem : fh ∈ ((HandleOp.take fh).needs + g).draining := by simp [HandleOp.needs]
      obtain ⟨-, r, record, taken⟩ := sound.unlisted fh (Multiset.mem_add.mpr (.inr mem))
      exact ⟨r, record, sound.closed fh mem r record, taken⟩
  | unlease fh =>
      have mem : fh ∈ ((HandleOp.unlease fh).needs + g).leases := by simp [HandleOp.needs]
      obtain ⟨r, record⟩ := sound.leased fh mem
      exact ⟨r, record, by rw [sound.active fh r record]; exact Multiset.count_pos.mpr mem⟩
  | _ => trivial

namespace World.Inv

variable {strict : Prop} {w w' : World K X.State} {T : Holdings} {node : NodeId}

theorem file {o : HandleOp} {r : o.Res K.Handle} {files : Handles K.Handle}
    (inv : Inv strict w ({ files := o.needs } + T)) (step : w.handles.files.step o r files) :
    Inv strict { w with handles := { w.handles with files } }
      ({ files := o.gives r, opens := o.unlists r } + T) := by
  obtain ⟨sound, nodes, keys⟩ := Handles.step_sound inv.files step
  constructor
  case held =>
      have held := inv.held
      simp only [Holdings.add_refs, Holdings.add_opens, zero_add, nodes] at held
      simpa [add_assoc, add_left_comm] using held
  case numbered => exact inv.numbered
  case files => exact sound
  case dirs => simpa using inv.dirs
  case apart =>
      intro fh s record
      obtain ⟨s', record'⟩ := keys fh s record
      exact inv.apart fh s' record'
  case counted => exact inv.counted

theorem dir {o : HandleOp} {r : o.Res K.DirHandle} {dirs : Handles K.DirHandle}
    (inv : Inv strict w ({ dirs := o.needs } + T)) (step : w.handles.dirs.step o r dirs) :
    Inv strict { w with handles := { w.handles with dirs } }
      ({ dirs := o.gives r, opens := o.unlists r } + T) := by
  obtain ⟨sound, nodes, keys⟩ := Handles.step_sound inv.dirs step
  constructor
  case held =>
      have held := inv.held
      simp only [Holdings.add_refs, Holdings.add_opens, zero_add, nodes] at held
      simpa [add_assoc, add_left_comm] using held
  case numbered => exact inv.numbered
  case files => simpa using inv.files
  case dirs => exact sound
  case apart =>
      intro fh s record
      cases other : dirs.records[fh]? with
      | none => rfl
      | some s' =>
          obtain ⟨s'', record'⟩ := keys fh s' other
          rw [inv.apart fh s record] at record'
          cases record'
  case counted => exact inv.counted

/-- A new record takes over the open counted for it. -/
theorem addFile (inv : Inv strict w (.opened node + T)) (handle : K.Handle) :
    Inv strict { w with handles := (w.handles.addFile node handle).2 }
      ((if (w.handles.addFile node handle).1.isSome then 0 else .opened node) + T) := by
  have unlisted : w.handles.nextFh ∉ w.handles.files.listed := fun listed => by
    obtain ⟨r, record, -⟩ := inv.files.listed _ listed
    rw [inv.files.fresh] at record
    cases record
  unfold HandleTable.addFile
  split
  · rename_i next add
    cases checkedAdd_eq_some add
    simp only [Option.isSome_some, ↓reduceIte, zero_add]
    constructor
    case held =>
        have held := inv.held
        dsimp only
        rw [Handles.nodes_add unlisted]
        simpa [Holdings.opened, Multiset.cons_add, Multiset.add_cons] using held
    case numbered => exact inv.numbered
    case files => simpa [Holdings.opened] using inv.files.add
    case dirs => simpa [Holdings.opened] using inv.dirs.mono (Nat.le_succ _)
    case apart =>
        intro fh r record
        simp only [Handles.add, ExtTreeMap.getElem?_insert, LawfulEqCmp.compare_eq_iff_eq] at record
        split at record
        · rename_i same
          cases other : w.handles.dirs.records[fh]? with
          | none => rfl
          | some s => exact absurd (inv.dirs.lt fh s other) (by omega)
        · exact inv.apart fh r record
    case counted => simpa [Holdings.opened] using inv.counted
  · exact inv

theorem addDir (inv : Inv strict w (.opened node + T)) (handle : K.DirHandle) :
    Inv strict { w with handles := (w.handles.addDir node handle).2 }
      ((if (w.handles.addDir node handle).1.isSome then 0 else .opened node) + T) := by
  have unlisted : w.handles.nextFh ∉ w.handles.dirs.listed := fun listed => by
    obtain ⟨r, record, -⟩ := inv.dirs.listed _ listed
    rw [inv.dirs.fresh] at record
    cases record
  unfold HandleTable.addDir
  split
  · rename_i next add
    cases checkedAdd_eq_some add
    simp only [Option.isSome_some, ↓reduceIte, zero_add]
    constructor
    case held =>
        have held := inv.held
        dsimp only
        rw [Handles.nodes_add unlisted]
        simpa [Holdings.opened, Multiset.cons_add, Multiset.add_cons] using held
    case numbered => exact inv.numbered
    case files => simpa [Holdings.opened] using inv.files.mono (Nat.le_succ _)
    case dirs => simpa [Holdings.opened] using inv.dirs.add
    case apart =>
        intro fh r record
        simp only [Handles.add, ExtTreeMap.getElem?_insert, LawfulEqCmp.compare_eq_iff_eq]
        split
        · rename_i same
          exact absurd (inv.files.lt fh r record) (by omega)
        · exact inv.apart fh r record
    case counted => simpa [Holdings.opened] using inv.counted
  · exact inv

end World.Inv

end TypedFuse
