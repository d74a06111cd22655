import TypedFuse.Lib.Ledger
import TypedFuse.Path.Sections

/-!
# Locks

What a request to a `PathNodeFs` holds: the `operations` lock, the namespace mutex, leases on handles
and the node references of its callbacks.  `grasps` keeps the account of one request, and `Grasped`
ties the state to the accounts of all requests that are under way (`grasps_tied`).

Every request keeps an order (`Request.restores`).  A closed handle is drained before anything else is
taken, the `operations` lock comes after the leases on handles and is taken once, and the namespace
mutex comes last.  Epochs are read under the shared lock, and a call that changes names is made under
the exclusive lock, after the epochs of its directories have been moved on.  Whatever was taken is
given back on every way out.
-/

namespace TypedFuse

open Std Prog PathNodeFs

variable {P : PathTypes} {F : Backing P} {O ε α β σ : Type}

/-! ## Accounts -/

/-- The directories, by their keys, in which a call changes names. -/
def InnerCall.changes : InnerCall P → List Nat
  | .mknod parent _ _ _ _ _ => [parent.node.key]
  | .mkdir parent _ _ _ _ => [parent.node.key]
  | .symlink parent _ _ _ => [parent.node.key]
  | .unlink parent _ _ => [parent.node.key]
  | .rmdir parent _ _ => [parent.node.key]
  | .rename parent _ newparent _ _ => [parent.node.key, newparent.node.key]
  | .link _ newparent _ _ => [newparent.node.key]
  | .create parent _ _ _ _ _ => [parent.node.key]
  | _ => []

/-- What a request holds that others may wait for, the directories whose epochs it has moved on
since it took the `operations` lock, and the node references of its callbacks. -/
@[ext] structure Grasp where
  reads : Nat := 0
  writes : Nat := 0
  names : Nat := 0
  changed : Multiset Nat := 0
  files : Multiset Nat := 0
  dirs : Multiset Nat := 0
  refs : Multiset Lease := 0

namespace Grasp

instance : Zero Grasp := ⟨{}⟩

instance : Add Grasp :=
  ⟨fun a b => ⟨a.reads + b.reads, a.writes + b.writes, a.names + b.names, a.changed + b.changed,
    a.files + b.files, a.dirs + b.dirs, a.refs + b.refs⟩⟩

@[simp] theorem add_reads (a b : Grasp) : (a + b).reads = a.reads + b.reads := rfl
@[simp] theorem add_writes (a b : Grasp) : (a + b).writes = a.writes + b.writes := rfl
@[simp] theorem add_names (a b : Grasp) : (a + b).names = a.names + b.names := rfl
@[simp] theorem add_changed (a b : Grasp) : (a + b).changed = a.changed + b.changed := rfl
@[simp] theorem add_files (a b : Grasp) : (a + b).files = a.files + b.files := rfl
@[simp] theorem add_dirs (a b : Grasp) : (a + b).dirs = a.dirs + b.dirs := rfl
@[simp] theorem add_refs (a b : Grasp) : (a + b).refs = a.refs + b.refs := rfl

instance : AddCommMonoid Grasp where
  add_assoc a b c := by ext : 1 <;> exact add_assoc _ _ _
  zero_add a := by ext : 1 <;> exact zero_add _
  add_zero a := by ext : 1 <;> exact add_zero _
  add_comm a b := by ext : 1 <;> exact add_comm _ _
  nsmul := nsmulRec

/-- The namespace mutex is not held. -/
def Nameless (T : Grasp) : Prop := T.names = 0

/-- No lock of the adapter is held. -/
structure Lockless (T : Grasp) : Prop where
  reads : T.reads = 0
  writes : T.writes = 0
  names : T.names = 0
  changed : T.changed = 0

/-- Nothing is held that another request waits for. -/
structure Bare (T : Grasp) : Prop extends T.Lockless where
  files : T.files = 0
  dirs : T.dirs = 0

theorem bare_zero : (0 : Grasp).Bare := ⟨⟨rfl, rfl, rfl, rfl⟩, rfl, rfl⟩

/-- The `operations` lock is held shared, the namespace mutex not. -/
def Reading (T : Grasp) : Prop := 0 < T.reads ∧ T.Nameless

/-- The `operations` lock is held, the namespace mutex not, and the epochs of the directories `ks`
have been moved on. -/
def Changing (ks : List Nat) (T : Grasp) : Prop :=
  0 < T.writes ∧ T.Nameless ∧ ∀ k ∈ ks, k ∈ T.changed

end Grasp

/-- What has to be held, or not to be held, for an operation of a callback. -/
def CxOp.inOrder (T : Grasp) : CxOp (pathTypes P) → Prop
  | .drop ref => ref.lease ∈ T.refs
  | .ext .readLock => T.Lockless
  | .ext .writeLock => T.Lockless
  | .ext .readUnlock => 0 < T.reads
  | .ext .writeUnlock => 0 < T.writes
  | .ext (.lock _) => T.Nameless
  | .ext (.unlock _) => 0 < T.names
  | .ext (.entriesChanged _) => 0 < T.writes
  | .ext (.entriesEpoch _) => 0 < T.reads
  | .ext (.inner c) => ∀ k ∈ c.changes, k ∈ T.changed
  | _ => True

def CxOp.note (T : Grasp) : (o : CxOp (pathTypes P)) → o.Res → Grasp
  | .get _, r => { T with refs := taken r.join + T.refs }
  | .drop ref, _ => { T with refs := T.refs.erase ref.lease }
  | .ext .readLock, _ => { T with reads := T.reads + 1 }
  | .ext .writeLock, _ => { T with writes := T.writes + 1 }
  | .ext .readUnlock, _ => { T with reads := T.reads - 1 }
  | .ext .writeUnlock, _ => { T with writes := T.writes - 1, changed := 0 }
  | .ext (.lock _), _ => { T with names := T.names + 1 }
  | .ext (.unlock _), _ => { T with names := T.names - 1 }
  | .ext (.entriesChanged key), _ => { T with changed := key ::ₘ T.changed }
  | _, _ => T

/-- Only the wait for the leases on a closed handle asks for something. -/
def HandleOp.inOrder (T : Grasp) : HandleOp → Prop
  | .take _ => T.Bare
  | _ => True

/-- The leases of a request after a section on one map of the handle table. -/
def HandleOp.note {R : Type} (leases : Multiset Nat) (o : HandleOp) (r : o.Res R) : Multiset Nat :=
  (leases - o.needs.leases) + (o.gives r).leases

/-- The account of a request. -/
def grasps (P : PathTypes) : Ledger (rtSig (pathTypes P)) Grasp where
  may T
    | .cx o => o.inOrder T
    | .file o => o.inOrder T
    | .dir o => o.inOrder T
    | _ => True
  next T
    | .cx o, r => o.note T r
    | .file o, r => { T with files := o.note T.files r }
    | .dir o, r => { T with dirs := o.note T.dirs r }
    | _, _ => T

/-- The account of a callback. -/
def cbGrasps (P : PathTypes) (O : Type) : Ledger (cbSig (pathTypes P) O) Grasp where
  may T
    | .cx o => o.inOrder T
    | .offer _ => True
  next T
    | .cx o, r => o.note T r
    | .offer _, _ => T

/-! ## The state and all accounts -/

/-- No record counts more leases than there are. -/
def Handles.LeasedBy {R : Type} (h : Handles R) (leases : Multiset Nat) : Prop :=
  ∀ (fh : Nat) (r : HandleRecord R), h.records[fh]? = some r → r.active ≤ leases.count fh

namespace Handles.LeasedBy

variable {R : Type} {h h' : Handles R} {leases leases' others : Multiset Nat} {fh : Nat}

theorem mono (leased : h.LeasedBy leases) (more : leases ≤ leases') : h.LeasedBy leases' :=
  fun fh r record => (leased fh r record).trans (Multiset.count_le_of_le fh more)

theorem put {r r' : HandleRecord R} (leased : h.LeasedBy leases) (record : h.records[fh]? = some r)
    (active : r'.active ≤ r.active) : (h.put fh r').LeasedBy leases := by
  intro k s put
  rw [Handles.put_records] at put
  split at put
  · rename_i same
    cases put
    exact active.trans (leased k r (same ▸ record))
  · exact leased k s put

theorem add {node : NodeId} {payload : R} (leased : h.LeasedBy leases) :
    (h.add fh node payload).LeasedBy leases := by
  intro k r record
  rw [Handles.add, ExtTreeMap.getElem?_insert] at record
  split at record
  · cases record
    exact Nat.zero_le _
  · exact leased k r record

theorem acquire {payload : R} (leased : h.LeasedBy leases)
    (acquire : h.acquire fh = (some (some payload), h')) : h'.LeasedBy (leases + {fh}) := by
  obtain ⟨r, record, -, -, -, rfl⟩ := Handles.acquire_granted acquire
  intro k s put
  rw [Handles.put_records] at put
  rw [Multiset.count_add]
  split at put
  · rename_i same
    cases put
    have most := leased k r (same ▸ record)
    have one : Multiset.count k {fh} = 1 := by rw [same, Multiset.count_singleton_self]
    simp only
    omega
  · exact (leased k s put).trans (Nat.le_add_right _ _)

theorem unlease (leased : h.LeasedBy (leases + others)) :
    (h.unlease fh).LeasedBy (leases - {fh} + others) := by
  have less : ∀ k, (leases + others).count k - (if k = fh then 1 else 0) ≤
      (leases - {fh} + others).count k := fun k => by
    rw [Multiset.count_add, Multiset.count_add, Multiset.count_sub, Multiset.count_singleton]
    omega
  unfold Handles.unlease
  intro k s record
  split at record
  · rename_i none
    have other : k ≠ fh := by
      rintro rfl
      rw [none] at record
      cases record
    have bound := less k
    rw [if_neg other] at bound
    exact (leased k s record).trans bound
  · rename_i r found
    rw [Handles.put_records] at record
    have bound := less k
    split at record
    · rename_i same
      cases record
      rw [if_pos same.symm] at bound
      have most := leased k r (same ▸ found)
      simp only
      omega
    · rename_i other
      rw [if_neg (Ne.symm other)] at bound
      exact (leased k s record).trans bound

/-- Every section keeps to the leases that are noted. -/
theorem step {o : HandleOp} {r : o.Res R} (leased : h.LeasedBy (leases + others))
    (step : h.step o r h') : h'.LeasedBy (o.note leases r + others) := by
  have quiet : o.needs.leases = 0 → h'.LeasedBy (leases + others) →
      h'.LeasedBy (o.note leases r + others) := fun none leased => by
    refine leased.mono (add_le_add_left ?_ others)
    rw [HandleOp.note, none, tsub_zero]
    exact Multiset.le_add_right _ _
  have granted : ∀ {fh payload}, o.needs.leases = 0 → (o.gives r).leases = {fh} →
      h.acquire fh = (some (some payload), h') → h'.LeasedBy (o.note leases r + others) := by
    intro fh payload none one granted
    rw [HandleOp.note, none, one, tsub_zero, add_right_comm]
    exact leased.acquire granted
  cases o with
  | find fh =>
      obtain ⟨-, rfl⟩ := step
      exact quiet rfl leased
  | acquire fh =>
      match r, step with
      | none, step =>
          cases Handles.acquire_overflow step
          exact quiet rfl leased
      | some none, step =>
          cases Handles.acquire_refused step
          exact quiet rfl leased
      | some (some payload), step => exact granted rfl rfl step
  | scan ino =>
      have step : h.scan ino = (r, h') := step
      unfold Handles.scan at step
      rcases Handles.scanFrom_cases ino h.listed.toList.reverse with
        ⟨eq, -⟩ | eq | ⟨fh, payload, h₁, eq, acquire, -⟩
      · rw [eq] at step
        cases step
        exact quiet rfl leased
      · rw [eq] at step
        cases step
        exact quiet rfl leased
      · rw [eq] at step
        cases step
        exact granted rfl rfl acquire
  | unlease fh =>
      cases step
      show (h.unlease fh).LeasedBy (leases - {fh} + 0 + others)
      rw [add_zero]
      exact leased.unlease
  | remove ino fh =>
      refine quiet rfl ?_
      have step : h.remove ino fh = (r, h') := step
      unfold Handles.remove at step
      split at step
      · cases step
        exact leased
      · cases step
        exact leased
  | close fh =>
      refine quiet rfl ?_
      cases step
      unfold Handles.close
      split
      · exact leased
      · rename_i r' record
        exact leased.put record (Nat.le_refl _)
  | take fh =>
      refine quiet rfl ?_
      obtain ⟨r', record, -, -, rfl⟩ := Handles.take_eq_some step
      exact leased.put record (Nat.le_refl _)

end Handles.LeasedBy

/-- The state counts what all requests hold. -/
structure Grasped (w : PathWorld F) (T : Grasp) : Prop where
  readers : w.ext.readers = T.reads
  writer : (if w.ext.writer then 1 else 0) = T.writes
  exclusive : T.writes ≠ 0 → T.reads = 0
  locked : (if w.ext.locked then 1 else 0) = T.names
  files : w.handles.files.LeasedBy T.files
  dirs : w.handles.dirs.LeasedBy T.dirs
  kept : w.kept = T.refs

namespace Grasped

variable {w w' : PathWorld F} {T T' : Grasp}

/-- Only the adapter's locks, the handle records and the references of callbacks count. -/
theorem congr (grasped : Grasped w T) (readers : w'.ext.readers = w.ext.readers)
    (writer : w'.ext.writer = w.ext.writer) (locked : w'.ext.locked = w.ext.locked)
    (handles : w'.handles = w.handles) (kept : w'.kept = w.kept) : Grasped w' T where
  readers := readers.trans grasped.readers
  writer := by
    rw [writer]
    exact grasped.writer
  exclusive := grasped.exclusive
  locked := by
    rw [locked]
    exact grasped.locked
  files := by
    rw [handles]
    exact grasped.files
  dirs := by
    rw [handles]
    exact grasped.dirs
  kept := kept.trans grasped.kept

/-- An operation on the adapter's own state. -/
theorem ext {e : PathOp P} {r : e.Res} {x : PathState P F.State} (grasped : Grasped w (T + T'))
    (may : CxOp.inOrder T (.ext e)) (step : PathState.step F e w.ext r x) :
    Grasped { w with ext := x } (CxOp.note T (.ext e) r + T') := by
  have readers := grasped.readers
  have writer := grasped.writer
  have exclusive := grasped.exclusive
  have locked := grasped.locked
  simp only [Grasp.add_reads, Grasp.add_writes, Grasp.add_names] at readers writer exclusive locked
  cases e with
  | readLock =>
      obtain ⟨free, rfl⟩ := step
      have none : T.writes = 0 := Grasp.Lockless.writes may
      refine ⟨?_, writer, fun writes => absurd ?_ writes, locked, grasped.files, grasped.dirs,
        grasped.kept⟩
      · show w.ext.readers + 1 = T.reads + 1 + T'.reads
        omega
      · rw [if_neg (by rw [free]; exact Bool.false_ne_true)] at writer
        exact writer.symm
  | readUnlock =>
      cases step
      have held : 0 < T.reads := may
      refine ⟨?_, writer, fun writes => ?_, locked, grasped.files, grasped.dirs, grasped.kept⟩
      · show w.ext.readers - 1 = T.reads - 1 + T'.reads
        omega
      · have none := exclusive writes
        omega
  | writeLock =>
      obtain ⟨free, alone, rfl⟩ := step
      rw [if_neg (by rw [free]; exact Bool.false_ne_true)] at writer
      refine ⟨readers, ?_, fun _ => ?_, locked, grasped.files, grasped.dirs, grasped.kept⟩
      · show 1 = T.writes + 1 + T'.writes
        omega
      · show T.reads + T'.reads = 0
        omega
  | writeUnlock =>
      cases step
      have held : 0 < T.writes := may
      have most : (if w.ext.writer then 1 else 0) ≤ 1 := by split <;> omega
      refine ⟨readers, ?_, fun _ => exclusive (by omega), locked, grasped.files, grasped.dirs,
        grasped.kept⟩
      show 0 = T.writes - 1 + T'.writes
      omega
  | lock use =>
      obtain ⟨free, -, rfl⟩ := step
      rw [if_neg (by rw [free]; exact Bool.false_ne_true)] at locked
      refine ⟨readers, writer, exclusive, ?_, grasped.files, grasped.dirs, grasped.kept⟩
      show 1 = T.names + 1 + T'.names
      omega
  | unlock ns =>
      cases step
      have held : 0 < T.names := may
      have most : (if w.ext.locked then 1 else 0) ≤ 1 := by split <;> omega
      refine ⟨readers, writer, exclusive, ?_, grasped.files, grasped.dirs, grasped.kept⟩
      show 0 = T.names - 1 + T'.names
      omega
  | diverge => exact step.elim
  | newListings | resume _ _ _ | push _ _ _ | takeEntryAttr _ | entriesEpoch _ =>
      obtain ⟨-, rfl⟩ := step
      exact grasped.congr rfl rfl rfl rfl rfl
  | setEntryAttr _ _ | finish _ _ _ =>
      cases step
      exact grasped.congr rfl rfl rfl rfl rfl
  | entriesChanged key =>
      cases step
      exact ⟨readers, writer, exclusive, locked, grasped.files, grasped.dirs, grasped.kept⟩
  | inner _ | innerForget _ =>
      obtain ⟨b, -, rfl⟩ := step
      exact grasped.congr rfl rfl rfl rfl rfl

theorem cx {o : CxOp (pathTypes P)} {r : o.Res} (grasped : Grasped w (T + T'))
    (may : o.inOrder T) (step : World.cxStep (adapter F) o w r w') :
    Grasped w' (o.note T r + T') := by
  cases o with
  | get id =>
      obtain ⟨-, rfl⟩ := step
      refine { grasped with kept := ?_ }
      show taken r.join + w.kept = taken r.join + T.refs + T'.refs
      rw [grasped.kept, add_assoc]
      rfl
  | drop ref =>
      obtain ⟨-, rfl⟩ := step
      have held : ref.lease ∈ T.refs := may
      refine { grasped with kept := ?_ }
      show w.kept.erase ref.lease = T.refs.erase ref.lease + T'.refs
      rw [grasped.kept]
      exact Multiset.erase_add_left_pos T'.refs held
  | contains _ | insert _ _ | addLink _ =>
      obtain ⟨-, rfl⟩ := step
      exact grasped.congr rfl rfl rfl rfl rfl
  | reparent _ _ | removeLink _ =>
      cases step
      exact grasped.congr rfl rfl rfl rfl rfl
  | ext e =>
      obtain ⟨x, step, rfl⟩ := step
      exact grasped.ext may step

end Grasped

/-- In every interleaving the state counts what the requests hold. -/
theorem grasps_tied : (grasps P).Tied (runtime (adapter F)) Grasped := by
  intro w T T' o r w' grasped may step
  have step : World.step (adapter F) o w r w' := step
  cases o with
  | cx o => exact grasped.cx may step
  | file o =>
      obtain ⟨files, moved, rfl⟩ := step
      exact { grasped with files := grasped.files.step moved }
  | dir o =>
      obtain ⟨dirs, moved, rfl⟩ := step
      exact { grasped with dirs := grasped.dirs.step moved }
  | addFile node handle =>
      obtain ⟨-, rfl⟩ := step
      refine { grasped with files := ?_, dirs := ?_ }
      · unfold HandleTable.addFile
        split
        · exact grasped.files.add
        · exact grasped.files
      · unfold HandleTable.addFile
        split
        · exact grasped.dirs
        · exact grasped.dirs
  | addDir node handle =>
      obtain ⟨-, rfl⟩ := step
      refine { grasped with files := ?_, dirs := ?_ }
      · unfold HandleTable.addDir
        split
        · exact grasped.files
        · exact grasped.files
      · unfold HandleTable.addDir
        split
        · exact grasped.dirs.add
        · exact grasped.dirs
  | get _ | retainLookup _ | generationOf _ | parentOf _ | beginForget _ _ | addOpen _
  | hasOpens _ =>
      obtain ⟨-, rfl⟩ := step
      exact grasped.congr rfl rfl rfl rfl rfl
  | dropRef _ | maybeDrop _ | removeOpen _ | offerDir _ _ | offerPlus _ _ =>
      cases step
      exact grasped.congr rfl rfl rfl rfl rfl

/-! ## Callbacks are in order -/

section Callbacks

/-- A part of a callback that gives back what it takes. -/
abbrev Tidies (A : Grasp → Prop) (p : Body P O ε α) : Prop := p.Settles (cbGrasps P O) A

/-- An operation on the adapter's own state that is neither on a lock nor on an epoch. -/
def PathOp.isFree : PathOp P → Bool
  | .readLock => false
  | .readUnlock => false
  | .writeLock => false
  | .writeUnlock => false
  | .lock _ => false
  | .unlock _ => false
  | .entriesChanged _ => false
  | .entriesEpoch _ => false
  | .inner c => c.changes.isEmpty
  | _ => true

theorem ext_tidies {A : Grasp → Prop} {e : PathOp P} {k : e.Res → Body P O ε α}
    (free : e.isFree = true) (rest : ∀ r, Tidies A (k r)) :
    Tidies (O := O) A (.op (.cx (.ext e)) k) := by
  refine .op (fun T _ => ?_) rest
  cases e with
  | readLock | readUnlock | writeLock | writeUnlock | lock _ | unlock _ | entriesChanged _
  | entriesEpoch _ => cases free
  | inner c =>
      refine ⟨fun k mem => ?_, fun _ => rfl⟩
      rw [List.isEmpty_iff.mp free] at mem
      cases mem
  | _ => exact ⟨trivial, fun _ => rfl⟩

theorem epoch_tidies {key : Nat} {k : Nat → Body P O ε α}
    (rest : ∀ e, Tidies Grasp.Reading (k e)) :
    Tidies (O := O) Grasp.Reading (.op (.cx (.ext (.entriesEpoch key))) k) :=
  .op (fun _ here => ⟨here.1, fun _ => rfl⟩) rest

theorem reading_tidies {body : Body P O ε α} (inside : Tidies Grasp.Reading body) :
    Tidies Grasp.Lockless (withRead body) :=
  fun T here => ⟨here, fun _ =>
    inside.scope ⟨Nat.succ_pos T.reads, here.names⟩ (Nat.succ_pos T.reads) fun _ => rfl⟩

theorem withRead_tidies {body : Body P O ε α} (inside : Tidies Grasp.Nameless body) :
    Tidies Grasp.Lockless (withRead body) :=
  reading_tidies (inside.mono fun _ here => here.2)

/-- A part of a callback that only moves epochs on. -/
def Marks (A : Grasp → Prop) (p : Body P O ε α) : Prop :=
  ∀ T, A T → p.Heeds (cbGrasps P O) T fun _ T' => ∃ ks, T' = { T with changed := ks }

theorem Settles.marks {A : Grasp → Prop} {p : Body P O ε α} (tidies : Tidies A p) : Marks A p :=
  fun T here => (tidies T here).mono fun _ _ same => ⟨T.changed, same⟩

theorem changed_marks {ks : List Nat} {key : Nat} {k : Unit → Body P O ε α}
    (rest : Marks (Grasp.Changing (key :: ks)) (k ())) :
    Marks (O := O) (Grasp.Changing ks) (.op (.cx (.ext (.entriesChanged key))) k) := by
  intro T here
  refine ⟨here.1, fun _ => rest _ ⟨here.1, here.2.1, fun k mem => ?_⟩⟩
  rcases List.mem_cons.mp mem with same | mem
  · rw [same]
    exact Multiset.mem_cons_self key _
  · exact Multiset.mem_cons_of_mem (here.2.2 k mem)

/-- The epochs that were moved on are noted until the lock is given back. -/
theorem withWrite_tidies {body : Body P O ε α} (inside : Marks (Grasp.Changing []) body) :
    Tidies Grasp.Lockless (withWrite body) := by
  refine fun T here => ⟨here, fun _ => Heeds.andFinally ?_⟩
  have start : Grasp.Changing [] { T with writes := T.writes + 1 } :=
    ⟨Nat.succ_pos T.writes, here.names, fun _ mem => absurd mem List.not_mem_nil⟩
  refine (inside _ start).mono ?_
  rintro out _ ⟨ks, rfl⟩
  refine ⟨Nat.succ_pos T.writes, fun _ => ⟨rfl, ?_⟩⟩
  show ({ T with changed := 0 } : Grasp) = T
  rw [← here.changed]

theorem withNode_tidies {id : NodeId} {body : PathNode P → Body P O Exit α}
    (inside : ∀ node, Tidies Grasp.Nameless (body node)) :
    Tidies Grasp.Nameless (PathNodeFs.withNode id body) := by
  intro T here
  refine ⟨trivial, fun r => ?_⟩
  have none : ({ T with refs := 0 + T.refs } : Grasp) = T := by rw [zero_add]
  rcases r with _ | _ | ref
  · exact none
  · exact none
  · refine (inside ref.record.payload).scope here ?_ fun _ => ?_
    · exact Multiset.mem_add.mpr (.inl (Multiset.mem_singleton_self ref.lease))
    · show ({ T with refs := ({ref.lease} + T.refs).erase ref.lease } : Grasp) = T
      rw [Multiset.singleton_add, Multiset.erase_cons_head]

theorem withNode_marks {ks : List Nat} {id : NodeId} {body : PathNode P → Body P O Exit α}
    (inside : ∀ node, Marks (Grasp.Changing ks) (body node)) :
    Marks (Grasp.Changing ks) (PathNodeFs.withNode id body) := by
  intro T here
  refine ⟨trivial, fun r => ?_⟩
  have none : ({ T with refs := 0 + T.refs } : Grasp) = { T with changed := T.changed } := by
    rw [zero_add]
  rcases r with _ | _ | ref
  · exact ⟨T.changed, none⟩
  · exact ⟨T.changed, none⟩
  · have held : Grasp.Changing ks { T with refs := {ref.lease} + T.refs } := here
    refine Heeds.andFinally ((inside ref.record.payload _ held).mono ?_)
    rintro out _ ⟨ks', rfl⟩
    refine ⟨?_, fun _ => ⟨rfl, ks', ?_⟩⟩
    · exact Multiset.mem_add.mpr (.inl (Multiset.mem_singleton_self ref.lease))
    show ({ T with changed := ks', refs := ({ref.lease} + T.refs).erase ref.lease } : Grasp) = _
    rw [Multiset.singleton_add, Multiset.erase_cons_head]

/-- A call that changes names comes after the epochs of its directories have been moved on. -/
theorem inner_marked {A : Grasp → Prop} (c : InnerCall P)
    (marked : ∀ T, A T → ∀ k ∈ c.changes, k ∈ T.changed) : Tidies (O := O) A (inner c) := by
  refine .op (fun T here => ⟨marked T here, fun _ => rfl⟩) fun r => ?_
  rcases r with _ | _ | v
  · exact .exit
  · exact .exit
  · exact .ret

theorem inner_tidies {A : Grasp → Prop} (c : InnerCall P) (plain : c.changes.isEmpty = true) :
    Tidies (O := O) A (inner c) := by
  refine inner_marked c fun T _ k mem => ?_
  rw [List.isEmpty_iff.mp plain] at mem
  cases mem

theorem inner_changing {ks : List Nat} (c : InnerCall P) (inside : ∀ k ∈ c.changes, k ∈ ks) :
    Tidies (O := O) (Grasp.Changing ks) (inner c) :=
  inner_marked c fun _ here k mem => here.2.2 k (inside k mem)

/-- A section of the namespace mutex. -/
theorem lock_tidies {use : NamespaceUse} {k : Namespace → Body P O ε α}
    (inside : ∀ ns T, T.Nameless →
      (k ns).Heeds (cbGrasps P O) { T with names := T.names + 1 } fun _ T' => T' = T) :
    Tidies (O := O) Grasp.Nameless (.op (.cx (.ext (.lock use))) k) :=
  fun T here => ⟨here, fun ns => inside ns T here⟩

/-- The end of a section of the namespace mutex. -/
theorem unlock_heeds {ns : Namespace} {k : Unit → Body P O ε α} {T : Grasp} (here : T.Nameless)
    (rest : Tidies Grasp.Nameless (k ())) :
    Prog.Heeds (cbGrasps P O) (.op (.cx (.ext (.unlock ns))) k) { T with names := T.names + 1 }
      fun _ T' => T' = T :=
  ⟨Nat.succ_pos T.names, fun _ => rest T here⟩

theorem nodeId_tidies (node : PathNode P) :
    Tidies Grasp.Nameless (nodeId node : Body P O ε (Option NodeId)) :=
  lock_tidies fun _ _ here => unlock_heeds here .ret

theorem pathFor_tidies (id : NodeId) :
    Tidies Grasp.Nameless (pathFor id : Body P O ε (Option Path)) := by
  refine lock_tidies fun ns T here => ?_
  cases way : ns.pathFor id with
  | none => exact ⟨trivial, fun r => nomatch r⟩
  | some path => exact unlock_heeds here .ret

theorem nodePath_tidies (node : PathNode P) :
    Tidies Grasp.Nameless (nodePath node : Body P O ε (Option Path)) := by
  refine (nodeId_tidies node).bind fun id => ?_
  cases id with
  | none => exact .ret
  | some id => exact pathFor_tidies id

theorem path_tidies (id : NodeId) :
    Tidies (O := O) Grasp.Nameless (PathNodeFs.path (P := P) id) := by
  refine (pathFor_tidies id).bind fun path => ?_
  cases path with
  | none => exact .exit
  | some path => exact .ret

theorem insert_tidies (d : Dentry) (state : P.NodeState) :
    Tidies (O := O) Grasp.Nameless (PathNodeFs.insert (P := P) d state) := by
  refine lock_tidies fun ns T here => ?_
  cases known : ns.byName[d]? with
  | some id => exact unlock_heeds here .ret
  | none =>
      dsimp only
      cases next : checkedAdd 64 ns.nextKey with
      | none => exact unlock_heeds here .exit
      | some next =>
          refine ⟨trivial, fun id => ?_⟩
          cases id with
          | none => exact unlock_heeds here .exit
          | some id => exact unlock_heeds here .ret

theorem removeDentry_tidies (d : Dentry) :
    Tidies Grasp.Nameless (removeDentry d : Body P O ε Unit) := by
  refine lock_tidies fun ns T here => ?_
  rcases ns.remove d with ⟨_ | id, ns'⟩
  · exact unlock_heeds here .ret
  · exact ⟨trivial, fun _ => unlock_heeds here .ret⟩

theorem renameDentry_tidies (old new : Dentry) :
    Tidies Grasp.Nameless (renameDentry old new : Body P O ε Unit) := by
  refine lock_tidies fun ns T here => ?_
  rcases ns.rename old new with _ | ⟨_ | replaced, source, ns'⟩
  · exact unlock_heeds here .ret
  · exact ⟨trivial, fun _ => unlock_heeds here .ret⟩
  · exact ⟨trivial, fun _ => ⟨trivial, fun _ => unlock_heeds here .ret⟩⟩

theorem addAlias_tidies (id : NodeId) (d : Dentry) :
    Tidies (O := O) Grasp.Nameless (addAlias (P := P) id d) := by
  refine lock_tidies fun ns T here => unlock_heeds here (.op (fun _ _ => ?_) fun r => ?_)
  · exact ⟨trivial, fun _ => rfl⟩
  · cases r with
    | none => exact .exit
    | some _ => exact .ret

theorem addNode_tidies (parent : NodeId) (name : OsStr) (entry : PathEntry P) :
    Tidies (O := O) Grasp.Nameless (addNode parent name entry) := by
  refine (insert_tidies _ _).bind fun made => ?_
  refine (withNode_tidies fun node => ?_).bind fun _ => .ret
  exact ext_tidies rfl fun _ => .ret

theorem addListedEntry_tidies (this parent : NodeId) (entry : DirEntry P.NodeState)
    {add : NodeId → Body P O Exit Bool} (adds : ∀ id, Tidies Grasp.Nameless (add id)) :
    Tidies Grasp.Nameless (addListedEntry this parent entry add) := by
  unfold addListedEntry
  split
  · exact adds this
  · exact adds parent
  · refine (insert_tidies _ _).bind fun made => (adds made.1).bind fun accepted => ?_
    split
    · exact (removeDentry_tidies _).bind fun _ => .ret
    · exact .ret

theorem directoryListing_tidies (dir : PathNode P) (path : Path) (handle : PathDirHandle P)
    (offset : Nat) (caller : Caller) :
    Tidies (O := O) Grasp.Reading (directoryListing dir path handle offset caller) := by
  have refresh : ∀ start, Tidies (O := O) Grasp.Reading
      (.op (.cx (.ext (.entriesEpoch dir.key))) fun epoch =>
        inner (.listDir ⟨some path, dir⟩ handle.inner caller) >>= fun buffer =>
          if maxListingLen < buffer.entries.length then .exit (.errno .EOVERFLOW)
          else .op (.cx (.ext (.push handle.listings epoch buffer))) fun listing =>
            .ret (DirRead.listing listing start true)) := fun start => by
    refine epoch_tidies fun epoch => (inner_tidies _ rfl).bind fun buffer => ?_
    split
    · exact .exit
    · exact ext_tidies rfl fun _ => .ret
  unfold directoryListing
  rcases splitCookie offset with ⟨generation, start⟩
  dsimp only
  split
  · exact refresh start
  · refine ext_tidies rfl fun read => ?_
    cases read with
    | some read => exact .ret
    | none => exact refresh start

theorem replayed_tidies (dir : PathNodeRef P) (stale plus : Bool) (caller : Caller)
    (listed : DirEntry P.NodeState) :
    Tidies (O := O) Grasp.Nameless (replayed dir stale plus caller listed) := by
  unfold replayed
  split
  · split
    · refine ext_tidies rfl fun r => ?_
      rcases r with _ | _ | _ | found
      · exact .exit
      · exact .ret
      · exact .ret
      · exact .ret
    · exact .ret
  · exact .ret

theorem replayFrom_tidies {generation : Nat}
    {current : DirEntry P.NodeState → Body P O Exit (Replayed P.NodeState)}
    {emit : DirEntry P.NodeState → Nat → Body P O Exit Bool}
    (currents : ∀ e, Tidies Grasp.Nameless (current e))
    (emits : ∀ e next, Tidies Grasp.Nameless (emit e next))
    (entries : List (DirEntry P.NodeState)) (index accepted : Nat) :
    Tidies Grasp.Nameless (replayFrom generation current emit entries index accepted) := by
  induction entries generalizing index accepted with
  | nil => exact .ret
  | cons listed rest ih =>
      refine (currents listed).bind fun what => ?_
      cases what with
      | skip => exact ih _ _
      | failed e => exact .ret
      | send entry =>
          refine (emits entry _).bind fun took => ?_
          cases took with
          | false => exact .ret
          | true => exact ih _ _

theorem replayListing_tidies (dir : PathNode P) (path : Path) (listing : DirListing P.NodeState)
    (start : Nat) (plus : Bool) (caller : Caller)
    {emit : DirEntry P.NodeState → Nat → Body P O Exit Bool}
    (emits : ∀ e next, Tidies Grasp.Nameless (emit e next)) :
    Tidies Grasp.Reading (replayListing dir path listing start plus caller emit) := by
  refine epoch_tidies fun epoch => ?_
  refine ((replayFrom_tidies (replayed_tidies _ _ _ _) emits _ _ _).mono fun _ here =>
    here.2).bind fun done => ?_
  rcases done with ⟨_ | accepted, _ | e⟩
  · exact .ret
  · exact .exit
  · exact .ret
  · exact .ret

theorem readDirectory_tidies (node : PathNode P) (this parent : NodeId) (handle : PathDirHandle P)
    (offset : Nat) (plus : Bool) (caller : Caller)
    (offer : DirEntry P.NodeState → NodeId → Nat → Option O) :
    Tidies Grasp.Lockless (readDirectory node this parent handle offset plus caller offer) := by
  refine reading_tidies (((nodePath_tidies node).mono fun _ here => here.2).bind fun path => ?_)
  cases path with
  | none => exact .exit
  | some path =>
      refine (directoryListing_tidies node path handle offset caller).bind fun read => ?_
      cases read with
      | ended => exact .ret
      | listing listing start owned =>
          refine Settles.bind (replayListing_tidies node path listing start plus caller
            fun entry next => ?_) fun accepted => ?_
          · refine addListedEntry_tidies this parent entry fun id => ?_
            cases offer entry id next with
            | none => exact .exit
            | some o =>
                refine .op (fun _ _ => ⟨trivial, fun _ => rfl⟩) fun took => ?_
                cases took with
                | none => exact .exit
                | some took => exact .ret
          · show Tidies Grasp.Reading (if _ then _ else _)
            split
            · exact ext_tidies rfl fun _ => .ret
            · exact .ret

theorem onNode_tidies (node : PathNode P) {f : PathNodeRef P → Body P O ε α}
    (calls : ∀ ref, Tidies Grasp.Nameless (f ref)) : Tidies Grasp.Lockless (onNode node f) :=
  withRead_tidies ((nodePath_tidies node).bind fun _ => calls _)

theorem onPath_tidies (node : PathNode P) {f : PathNodeRef P → Body P O Exit α}
    (calls : ∀ ref, Tidies Grasp.Nameless (f ref)) : Tidies Grasp.Lockless (onPath node f) := by
  refine withRead_tidies ((nodePath_tidies node).bind fun path => ?_)
  cases path with
  | none => exact .exit
  | some path => exact calls _

theorem path_changing {ks : List Nat} (id : NodeId) :
    Tidies (O := O) (Grasp.Changing ks) (PathNodeFs.path (P := P) id) :=
  (path_tidies id).mono fun _ here => here.2.1

theorem changeIn_tidies (parent : NodeId) {f : PathNodeRef P → Body P O Exit α}
    (calls : ∀ ref, Tidies (Grasp.Changing [ref.node.key]) (f ref)) :
    Tidies Grasp.Lockless (changeIn parent f) :=
  withWrite_tidies (withNode_marks fun node => changed_marks (Settles.marks
    ((path_changing parent).bind fun p => calls ⟨some p, node⟩)))

theorem forget_tidies (node : PathNode P) :
    Tidies (O := O) Grasp.Lockless (PathNodeFs.forget node) := by
  refine onNode_tidies node fun ref => ext_tidies rfl fun r => ?_
  cases r with
  | none => exact .exit
  | some _ => exact .ret

theorem entryAttr_tidies (node : PathNode P) (caller : Caller) :
    Tidies (O := O) Grasp.Lockless (PathNodeFs.entryAttr node caller) := by
  refine ext_tidies rfl fun attr => ?_
  cases attr with
  | some attr => exact .ret
  | none => exact onNode_tidies node fun _ => inner_tidies _ rfl

theorem wants_tidies (node : PathNode P) :
    Tidies Grasp.Nameless (wantsFallbackHandle node : Body P O ε Bool) :=
  (nodePath_tidies node).bind fun _ => .ret

theorem lookup_tidies (parent : NodeId) (name : OsStr) (caller : Caller) :
    Tidies (O := O) Grasp.Lockless (PathNodeFs.lookup (P := P) parent name caller) := by
  refine withRead_tidies (withNode_tidies fun node => (path_tidies parent).bind fun p =>
    (inner_tidies _ rfl).bind fun found => ?_)
  cases found with
  | none => exact .ret
  | some entry => exact (addNode_tidies parent name entry).bind fun _ => .ret

theorem rename_tidies (parent : NodeId) (name : OsStr) (newparent : NodeId) (newname : OsStr)
    (flags : Nat) (caller : Caller) : Tidies (O := O) Grasp.Lockless
      (PathNodeFs.rename (P := P) parent name newparent newname flags caller) := by
  unfold PathNodeFs.rename
  split
  · exact .exit
  · refine withWrite_tidies (withNode_marks fun oldNode => withNode_marks fun newNode =>
      changed_marks (changed_marks (Settles.marks ?_)))
    refine (path_changing parent).bind fun _ => (path_changing newparent).bind fun _ => ?_
    refine (inner_changing _ fun k mem => ?_).bind fun _ =>
      (renameDentry_tidies _ _).mono fun _ here => here.2.1
    -- the directory of the new name was marked last
    rcases List.mem_cons.mp mem with same | mem
    · rw [same]
      exact List.mem_cons_of_mem _ List.mem_cons_self
    · rw [List.mem_singleton.mp mem]
      exact List.mem_cons_self

theorem link_tidies (id newparent : NodeId) (newname : OsStr) (caller : Caller) :
    Tidies (O := O) Grasp.Lockless (PathNodeFs.link (P := P) id newparent newname caller) := by
  refine withWrite_tidies (withNode_marks fun sourceNode => withNode_marks fun parentNode =>
    changed_marks (Settles.marks ?_))
  refine (path_changing id).bind fun _ => (path_changing newparent).bind fun _ => ?_
  refine (inner_changing _ fun k mem => ?_).bind fun _ =>
    (addAlias_tidies _ _).mono fun _ here => here.2.1
  exact mem

/-- A callback that calls for a new entry in a directory. -/
theorem make_tidies {β : Type} (parent : NodeId) (c : PathNodeRef P → InnerCall P)
    (inside : ∀ r, (c r).changes = [r.node.key])
    {f : (r : PathNodeRef P) → (c r).Val → Body P O Exit β}
    (rest : ∀ r v, Tidies Grasp.Nameless (f r v)) :
    Tidies Grasp.Lockless (changeIn parent fun r => inner (c r) >>= f r) :=
  changeIn_tidies parent fun r => (inner_changing (c r) fun _ mem => inside r ▸ mem).bind fun v =>
    (rest r v).mono fun _ here => here.2.1

theorem mknod_tidies (parent : NodeId) (name : OsStr) (mode rdev umask : Nat) (caller : Caller) :
    Tidies Grasp.Lockless ((pathNodeFs P).mknod parent name mode rdev umask caller) := by
  have tidies := make_tidies (O := Empty) (f := fun _ v => addNode (P := P) parent name v) parent
    (.mknod · name mode rdev umask caller) (fun _ => rfl) fun _ v => addNode_tidies parent name v
  exact tidies

theorem mkdir_tidies (parent : NodeId) (name : OsStr) (mode umask : Nat) (caller : Caller) :
    Tidies Grasp.Lockless ((pathNodeFs P).mkdir parent name mode umask caller) := by
  have tidies := make_tidies (O := Empty) (f := fun _ v => addNode (P := P) parent name v) parent
    (.mkdir · name mode umask caller) (fun _ => rfl) fun _ v => addNode_tidies parent name v
  exact tidies

theorem symlink_tidies (parent : NodeId) (name : OsStr) (target : Path) (caller : Caller) :
    Tidies Grasp.Lockless ((pathNodeFs P).symlink parent name target caller) := by
  have tidies := make_tidies (O := Empty) (f := fun _ v => addNode (P := P) parent name v) parent
    (.symlink · name target caller) (fun _ => rfl) fun _ v => addNode_tidies parent name v
  exact tidies

theorem create_tidies (parent : NodeId) (name : OsStr) (mode umask flags : Nat) (caller : Caller) :
    Tidies Grasp.Lockless ((pathNodeFs P).create parent name mode umask flags caller) := by
  have tidies := make_tidies (O := Empty) (f := fun _ (made : PathEntry P × Opened P.Handle) =>
    addNode parent name made.1 >>= fun id => .ret (id, made.2)) parent
    (.create · name mode umask flags caller) (fun _ => rfl) fun _ made =>
      (addNode_tidies parent name made.1).bind fun _ => .ret
  exact tidies

theorem removeEntry_tidies (parent : NodeId) (name : OsStr)
    {call : PathNodeRef P → Body P O Exit Unit}
    (calls : ∀ ref, Tidies (Grasp.Changing [ref.node.key]) (call ref)) :
    Tidies Grasp.Lockless (removeEntry parent name call) :=
  changeIn_tidies parent fun ref => (calls ref).bind fun _ =>
    (removeDentry_tidies _).mono fun _ here => here.2.1

theorem unlink_tidies (parent : NodeId) (name : OsStr) (caller : Caller) :
    Tidies Grasp.Lockless ((pathNodeFs P).unlink parent name caller) := by
  have tidies := removeEntry_tidies (O := Empty) parent name fun (r : PathNodeRef P) =>
    inner_changing (.unlink r name caller) fun _ mem => mem
  exact tidies

theorem rmdir_tidies (parent : NodeId) (name : OsStr) (caller : Caller) :
    Tidies Grasp.Lockless ((pathNodeFs P).rmdir parent name caller) := by
  have tidies := removeEntry_tidies (O := Empty) parent name fun (r : PathNodeRef P) =>
    inner_changing (.rmdir r name caller) fun _ mem => mem
  exact tidies

theorem opendir_tidies (node : PathNode P) (flags : Nat) (caller : Caller) :
    Tidies (O := O) Grasp.Lockless (PathNodeFs.opendir node flags caller) :=
  onPath_tidies node fun _ => (inner_tidies _ rfl).bind fun _ => ext_tidies rfl fun _ => .ret

end Callbacks

/-! ## Requests are in order -/

section Requests

/-- A part of a request that gives back what it takes. -/
abbrev Restores (A : Grasp → Prop) (p : Action (pathTypes P) α) : Prop := p.Settles (grasps P) A

variable {A : Grasp → Prop}

theorem call_restores {cb : Callback (pathTypes P) α} (tidies : Tidies A cb) :
    Restores A (Runtime.call cb) := by
  refine fun T here => Heeds.interp (fun o T may => ?_) (tidies T here)
  cases o with
  | cx o => exact ⟨may, fun r => ⟨r, rfl, rfl⟩⟩
  | offer e => exact nomatch e

theorem callTotal_restores {cb : TotalCallback (pathTypes P) α} (tidies : Tidies A cb) :
    Restores A (Runtime.callTotal cb) := by
  refine fun T here => Heeds.mapExit (Heeds.interp (fun o T may => ?_) (tidies T here))
  cases o with
  | cx o => exact ⟨may, fun r => ⟨r, rfl, rfl⟩⟩
  | offer e => exact nomatch e

/-- A sink that holds nothing. -/
def HoldsNothing (sink : O → σ → Action (pathTypes P) (Option Bool × σ)) : Prop :=
  ∀ e s T, (sink e s).Heeds (grasps P) T fun out T' => ∃ r s', out = .ok (r, s') ∧ T' = T

theorem callRead_restores {sink : O → σ → Action (pathTypes P) (Option Bool × σ)}
    {cb : ReadCallback (pathTypes P) O α} {s : σ} (nothing : HoldsNothing sink)
    (tidies : Tidies A cb) : Restores A (Runtime.callRead sink cb s) := by
  refine fun T here => Heeds.interpState (fun o s T may => ?_)
    ((tidies T here).mono fun _ _ same _ => same)
  cases o with
  | cx o => exact ⟨may, fun r => ⟨r, s, rfl, rfl⟩⟩
  | offer e => exact nothing e s T

theorem pageSink_holds (ino : Nat) : HoldsNothing (pageSink (K := pathTypes P) ino) :=
  fun _ _ _ => ⟨trivial, fun _ => ⟨_, _, rfl, rfl⟩⟩

theorem plusPageSink_holds (ino : Nat) : HoldsNothing (plusPageSink (K := pathTypes P) ino) :=
  fun _ _ _ => ⟨trivial, fun _ => ⟨_, _, rfl, rfl⟩⟩

theorem accounting_holds {sink : PlusEntry → σ → Action (pathTypes P) (Option Bool × σ)}
    (nothing : HoldsNothing sink) : HoldsNothing (Runtime.Accounting.add sink) := by
  intro offer s T
  refine ⟨trivial, fun generation => ?_⟩
  cases generation with
  | none => exact ⟨_, _, rfl, rfl⟩
  | some generation =>
      refine Heeds.bind ((nothing _ s.inner T).mono fun out T' done => ?_)
      obtain ⟨took, inner, rfl, rfl⟩ := done
      rcases took with _ | _ | _
      · exact ⟨_, _, rfl, rfl⟩
      · exact ⟨_, _, rfl, rfl⟩
      · show Prog.Heeds _ (if _ then _ else _) _ _
        split
        · refine ⟨trivial, fun retained => ?_⟩
          rcases retained with _ | _ | _
          · exact ⟨_, _, rfl, rfl⟩
          · exact ⟨_, _, rfl, rfl⟩
          · exact ⟨_, _, rfl, rfl⟩
        · exact ⟨_, _, rfl, rfl⟩

theorem scope_restores {ino : Nat} {body : NodeRef (PathNode P) → Action (pathTypes P) α}
    (inside : ∀ ref, Restores A (body ref)) :
    Restores A (Runtime.withNode (K := pathTypes P) ino body) := by
  refine .bind (.op (fun _ _ => ⟨trivial, fun _ => rfl⟩) fun r => ?_) fun ref T here => ?_
  · rcases r with _ | _ | ref
    · exact .exit
    · exact .exit
    · exact .ret
  · exact (inside ref).scope here trivial fun _ => rfl

/-! ### Leases on handles -/

theorem HandleOp.note_eq {R : Type} {leases : Multiset Nat} {o : HandleOp} {r : o.Res R}
    (needs : o.needs.leases = 0) (gives : (o.gives r).leases = 0) : o.note leases r = leases := by
  rw [HandleOp.note, needs, gives, tsub_zero, add_zero]

theorem Grasp.on_files {T : Grasp} {leases : Multiset Nat} (same : leases = T.files) :
    { T with files := leases } = T := by
  rw [same]

theorem Grasp.on_dirs {T : Grasp} {leases : Multiset Nat} (same : leases = T.dirs) :
    { T with dirs := leases } = T := by
  rw [same]

/-- A lease that is granted is noted. -/
def Granted (T T₁ : Grasp) : Except Exit α → Grasp → Prop
  | .ok _, T' => T' = T₁
  | .error _, T' => T' = T

theorem handleLease_heeds {R : Type} {sections : (o : HandleOp) → Action (pathTypes P) (o.Res R)}
    {ino fh : Nat} {T T₁ : Grasp}
    (finds : (sections (.find fh)).Heeds (grasps P) T fun _ T' => T' = T)
    (acquires : (sections (.acquire fh)).Heeds (grasps P) T fun out T' =>
      ∃ r : Option (Option R), out = .ok r ∧ T' = r.join.elim T fun _ => T₁) :
    (Runtime.handleLease sections ino fh).Heeds (grasps P) T (Granted T T₁) := by
  refine Heeds.bind (finds.mono fun out T' same => ?_)
  subst same
  rcases out with e | _ | node
  · rfl
  · rfl
  · show Prog.Heeds _ (if _ then _ else _) _ _
    split
    · rfl
    · refine Heeds.bind (acquires.mono fun out T' done => ?_)
      obtain ⟨r, rfl, rfl⟩ := done
      rcases r with _ | _ | payload
      · rfl
      · rfl
      · rfl

theorem file_heeds {ino fh : Nat} (T : Grasp) : (Runtime.file (K := pathTypes P) ino fh).Heeds
    (grasps P) T (Granted T { T with files := T.files + {fh} }) := by
  refine handleLease_heeds ⟨trivial, fun _ => ?_⟩ ⟨trivial, fun r => ⟨r, rfl, ?_⟩⟩
  · exact Grasp.on_files (HandleOp.note_eq rfl rfl)
  · rcases r with _ | _ | payload
    · exact Grasp.on_files (HandleOp.note_eq rfl rfl)
    · exact Grasp.on_files (HandleOp.note_eq rfl rfl)
    · show ({ T with files := T.files - 0 + {fh} } : Grasp) = _
      rw [tsub_zero]
      rfl

theorem dir_heeds {ino fh : Nat} (T : Grasp) : (Runtime.dir (K := pathTypes P) ino fh).Heeds
    (grasps P) T (Granted T { T with dirs := T.dirs + {fh} }) := by
  refine handleLease_heeds ⟨trivial, fun _ => ?_⟩ ⟨trivial, fun r => ⟨r, rfl, ?_⟩⟩
  · exact Grasp.on_dirs (HandleOp.note_eq rfl rfl)
  · rcases r with _ | _ | payload
    · exact Grasp.on_dirs (HandleOp.note_eq rfl rfl)
    · exact Grasp.on_dirs (HandleOp.note_eq rfl rfl)
    · show ({ T with dirs := T.dirs - 0 + {fh} } : Grasp) = _
      rw [tsub_zero]
      rfl

/-- The end of a lease. -/
theorem unleased (leases : Multiset Nat) (fh : Nat) :
    HandleOp.note (R := α) (leases + {fh}) (.unlease fh) () = leases := by
  show leases + {fh} - {fh} + 0 = leases
  rw [add_zero, Multiset.add_sub_cancel_right]

theorem fileScope_heeds {fh : Nat} {p : Action (pathTypes P) α} {T : Grasp} (here : T.Lockless)
    (inside : Restores Grasp.Lockless p) :
    (p.andFinally (.op (.file (.unlease fh)) .ret)).Heeds (grasps P)
      { T with files := T.files + {fh} } fun _ T' => T' = T := by
  exact inside.scope ⟨here.reads, here.writes, here.names, here.changed⟩ trivial fun _ =>
    Grasp.on_files (unleased T.files fh)

theorem withFile_restores {ino fh : Nat} {body : P.Handle → Action (pathTypes P) α}
    (inside : ∀ h, Restores Grasp.Lockless (body h)) :
    Restores Grasp.Lockless (Runtime.withFile (K := pathTypes P) ino fh body) := by
  refine fun T here => Heeds.bind ((file_heeds T).mono fun out T' granted => ?_)
  cases out with
  | error e => exact granted
  | ok h =>
      subst granted
      exact fileScope_heeds here (inside h)

theorem withDir_restores {ino fh : Nat} {body : PathDirHandle P → Action (pathTypes P) α}
    (inside : ∀ h, Restores Grasp.Lockless (body h)) :
    Restores Grasp.Lockless (Runtime.withDir (K := pathTypes P) ino fh body) := by
  refine fun T here => Heeds.bind ((dir_heeds T).mono fun out T' granted => ?_)
  cases out with
  | error e => exact granted
  | ok h =>
      subst granted
      exact (inside h).scope ⟨here.reads, here.writes, here.names, here.changed⟩ trivial fun _ =>
        Grasp.on_dirs (unleased T.dirs fh)

/-- The account with the lease of `optional_file`, if it has one. -/
def Grasp.withLease {R : Type} (T : Grasp) : Option (Nat × R) → Grasp
  | none => T
  | some (fh, _) => { T with files := T.files + {fh} }

theorem optionalFile_heeds {ino : Nat} {n : PathNode P} {fh : Option Nat} {T : Grasp}
    (here : T.Lockless) :
    (Runtime.optionalFile (pathNodeFs P) ino n fh).Heeds (grasps P) T fun out T' =>
      T' = T.withLease out.toOption.join := by
  cases fh with
  | some fh =>
      refine Heeds.bind ((file_heeds T).mono fun out T' granted => ?_)
      cases out with
      | error e => exact granted
      | ok h => exact granted
  | none =>
      refine ⟨trivial, fun opened => ?_⟩
      cases (opened : Bool) with
      | false => rfl
      | true =>
          have wants := callTotal_restores (wants_tidies (P := P) n) T here.names
          refine Heeds.bind (wants.mono fun out T' same => ?_)
          subst same
          rcases out with e | _ | _
          · rfl
          · rfl
          · refine ⟨trivial, fun r => ?_⟩
            rcases r with _ | _ | ⟨fh, h⟩
            · exact Grasp.on_files (HandleOp.note_eq rfl rfl)
            · exact Grasp.on_files (HandleOp.note_eq rfl rfl)
            · show ({ T' with files := T'.files - 0 + {fh} } : Grasp) = _
              rw [tsub_zero]
              rfl

theorem withOptionalFile_restores {ino : Nat} {n : PathNode P} {fh : Option Nat}
    {body : Option P.Handle → Action (pathTypes P) α}
    (inside : ∀ h, Restores Grasp.Lockless (body h)) :
    Restores Grasp.Lockless (Runtime.withOptionalFile (pathNodeFs P) ino n fh body) := by
  refine fun T here => Heeds.bind ((optionalFile_heeds here).mono fun out T' same => ?_)
  subst same
  rcases out with e | _ | lease
  · rfl
  · exact inside none T here
  · exact fileScope_heeds here (inside (some lease.2))

theorem releaseHandle_restores {R : Type}
    {sections : (o : HandleOp) → Action (pathTypes P) (o.Res R)}
    (quiet : ∀ o, o.needs.leases = 0 → (∀ r : o.Res R, (o.gives r).leases = 0) →
      Restores Grasp.Bare (sections o)) {ino fh : Nat}
    {callback : PathNode P → R → Callback (pathTypes P) Unit}
    (tidies : ∀ n h, Tidies Grasp.Lockless (callback n h)) :
    Restores Grasp.Bare (Runtime.releaseHandle (K := pathTypes P) sections ino fh callback) := by
  have remove : Restores Grasp.Bare (sections (.remove ino fh)) := quiet _ rfl fun r => by
    cases (r : Bool) <;> rfl
  have close := quiet (.close fh) rfl fun _ => rfl
  have take := quiet (.take fh) rfl fun _ => rfl
  refine remove.bind fun (removed : Bool) => ?_
  cases removed with
  | false => exact .exit
  | true =>
      refine scope_restores fun ref => .op (fun _ _ => ⟨trivial, fun _ => rfl⟩) fun _ => ?_
      refine close.bind fun _ => take.bind fun payload => call_restores ?_
      exact (tidies ref.record.payload payload).mono fun _ here => here.toLockless

theorem files_restores (o : HandleOp) (needs : o.needs.leases = 0)
    (gives : ∀ r : o.Res P.Handle, (o.gives r).leases = 0) :
    Restores Grasp.Bare (Runtime.files (K := pathTypes P) o) := by
  refine .op (fun T here => ⟨?_, fun r => Grasp.on_files (HandleOp.note_eq needs (gives r))⟩)
    fun _ => .ret
  cases o with
  | take fh => exact here
  | _ => trivial

theorem dirs_restores (o : HandleOp) (needs : o.needs.leases = 0)
    (gives : ∀ r : o.Res (PathDirHandle P), (o.gives r).leases = 0) :
    Restores Grasp.Bare (Runtime.dirs (K := pathTypes P) o) := by
  refine .op (fun T here => ⟨?_, fun r => Grasp.on_dirs (HandleOp.note_eq needs (gives r))⟩)
    fun _ => .ret
  cases o with
  | take fh => exact here
  | _ => trivial

/-! ### The methods -/

theorem own_restores {o : RtOp (pathTypes P)} {k : o.Res → Action (pathTypes P) α}
    (own : ∀ T, (grasps P).may T o ∧ ∀ r, (grasps P).next T o r = T)
    (rest : ∀ r, Restores A (k r)) : Restores A (.op o k) :=
  .op (fun T _ => own T) rest

theorem entryFor_restores (id : NodeId) (caller : Caller) :
    Restores Grasp.Lockless (Runtime.entryFor (pathNodeFs P) id caller) := by
  refine scope_restores fun ref => (call_restores (entryAttr_tidies _ caller)).bind fun attr =>
    own_restores (fun _ => ⟨trivial, fun _ => rfl⟩) fun r => ?_
  rcases r with _ | _ | generation
  · exact .exit
  · exact .exit
  · exact .ret

theorem forget_restores (ino nlookup : Nat) :
    Restores Grasp.Lockless (Runtime.forget (pathNodeFs P) ino nlookup) := by
  refine own_restores (fun _ => ⟨trivial, fun _ => rfl⟩) fun r => ?_
  rcases r with _ | _ | _ | ref
  · exact .exit
  · exact .ret
  · exact own_restores (fun _ => ⟨trivial, fun _ => rfl⟩) fun _ => .ret
  · intro T here
    exact (callTotal_restores (forget_tidies ref.record.payload)).scope here trivial fun _ => rfl

theorem forgetEach_restores (ids : List NodeId) :
    Restores Grasp.Lockless (Runtime.forgetEach (pathNodeFs P) ids) := by
  induction ids with
  | nil => exact .ret
  | cons id rest ih => exact (forget_restores id 1).bind fun _ => ih

theorem addOpen_restores (ino : Nat) : Restores A (Runtime.addOpen (K := pathTypes P) ino) := by
  refine own_restores (fun _ => ⟨trivial, fun _ => rfl⟩) fun r => ?_
  rcases r with _ | _ | _
  · exact .exit
  · exact .exit
  · exact .ret

theorem bindFile_restores (ino : Nat) (opened : Opened P.Handle) :
    Restores A (Runtime.bindFile (K := pathTypes P) ino opened) := by
  refine (addOpen_restores ino).bind fun _ =>
    own_restores (fun _ => ⟨trivial, fun _ => rfl⟩) fun r => ?_
  rcases r with _ | fh
  · exact .exit
  · exact .ret

theorem bindDir_restores (ino : Nat) (opened : Opened (PathDirHandle P)) :
    Restores A (Runtime.bindDir (K := pathTypes P) ino opened) := by
  refine (addOpen_restores ino).bind fun _ =>
    own_restores (fun _ => ⟨trivial, fun _ => rfl⟩) fun r => ?_
  rcases r with _ | fh
  · exact .exit
  · exact .ret

theorem onDir_restores {ino fh : Nat}
    {body : PathNode P → NodeId → PathDirHandle P → Action (pathTypes P) α}
    (inside : ∀ n parent h, Restores Grasp.Lockless (body n parent h)) :
    Restores Grasp.Lockless (Runtime.onDir (K := pathTypes P) ino fh body) := by
  refine scope_restores fun ref => own_restores (fun _ => ⟨trivial, fun _ => rfl⟩) fun parent => ?_
  rcases parent with _ | parent
  · exact .exit
  · exact withDir_restores fun h => inside _ parent h

theorem readdir_restores (ino fh offset : Nat) (caller : Caller) : Restores Grasp.Lockless
    (Runtime.readdir (pathNodeFs P) ino fh caller (pageSink ino) [] offset) := by
  refine onDir_restores fun n parent h => ?_
  have tidies : Tidies Grasp.Lockless ((pathNodeFs P).readdir n ino parent h offset caller) :=
    readDirectory_tidies n ino parent h offset false caller fun e id next =>
      some (⟨e.name, id, e.kind, next⟩ : DirOffer)
  refine (callRead_restores (pageSink_holds ino) tidies).bind fun read => ?_
  rcases read with ⟨_ | _, page⟩
  · exact .exit
  · exact .ret

theorem readdirplus_restores (ino fh offset : Nat) (caller : Caller) : Restores Grasp.Lockless
    (Runtime.readdirplus (pathNodeFs P) ino fh caller (plusPageSink ino) [] offset) := by
  refine onDir_restores fun n parent h => ?_
  have tidies : Tidies Grasp.Lockless ((pathNodeFs P).readdirplus n ino parent h offset caller) :=
    readDirectory_tidies n ino parent h offset true caller fun e id next =>
      e.attr.map fun attr => (⟨e.name, id, attr, next⟩ : PlusOffer)
  refine (callRead_restores (accounting_holds (plusPageSink_holds ino)) tidies).bind fun read => ?_
  rcases read with ⟨e | _, page⟩
  · cases e with
    | errno e => exact (forgetEach_restores page.accepted).bind fun _ => .exit
    | panic => exact .exit
  · exact .ret

/-- A request gives back whatever it takes, on every way out. -/
theorem Request.restores (q : Request) : Restores Grasp.Bare (q.run (pathNodeFs P)) := by
  have reply : ∀ {α : Type} {p : Action (pathTypes P) α} {f : α → Reply},
      Restores Grasp.Lockless p → Restores Grasp.Bare (p >>= fun a => .ret (f a)) :=
    fun restores => (restores.mono fun _ here => here.toLockless).bind fun _ => .ret
  have node : ∀ {α : Type} {ino : Nat} {cb : PathNode P → Callback (pathTypes P) α},
      (∀ n, Tidies Grasp.Lockless (cb n)) → Restores Grasp.Lockless
        (Runtime.withNode (K := pathTypes P) ino fun n => Runtime.call (cb n.record.payload)) :=
    fun tidies => scope_restores fun ref => call_restores (tidies _)
  have file : ∀ {α : Type} {ino fh : Nat} {cb : PathNode P → P.Handle → Callback (pathTypes P) α},
      (∀ n h, Tidies Grasp.Lockless (cb n h)) →
        Restores Grasp.Lockless (Runtime.onFile (K := pathTypes P) ino fh cb) :=
    fun tidies => scope_restores fun ref => withFile_restores fun h => call_restores (tidies _ h)
  have entry : ∀ {cb : Callback (pathTypes P) NodeId} {caller : Caller},
      Tidies Grasp.Lockless cb → Restores Grasp.Lockless
        (Runtime.call cb >>= fun id => Runtime.entryFor (pathNodeFs P) id caller) :=
    fun tidies => (call_restores tidies).bind fun id => entryFor_restores id _
  cases q with
  | forget ino n => exact reply (forget_restores ino n)
  | statfs caller => exact reply (call_restores (withRead_tidies (inner_tidies (.statfs [] caller) rfl)))
  | getattr ino fh caller =>
      exact reply (scope_restores fun ref => withOptionalFile_restores fun h =>
        call_restores (onNode_tidies _ fun r => inner_tidies (.getattr r h caller) rfl))
  | setattr ino fh set caller =>
      exact reply (scope_restores fun ref => withOptionalFile_restores fun h =>
        call_restores (onNode_tidies _ fun r => inner_tidies (.setattr r h set caller) rfl))
  | readlink ino caller =>
      exact reply (node fun n => onPath_tidies n fun r => inner_tidies (.readlink r caller) rfl)
  | access ino mask caller =>
      exact reply (node fun n => onPath_tidies n fun r => inner_tidies (.access r mask caller) rfl)
  | setxattr ino name value flags caller =>
      exact reply (node fun n => onPath_tidies n fun r =>
        inner_tidies (.setxattr r name value flags caller) rfl)
  | getxattr ino name size caller =>
      exact reply (node fun n => onPath_tidies n fun r =>
        inner_tidies (.getxattr r name size caller) rfl)
  | listxattr ino size caller =>
      exact reply (node fun n => onPath_tidies n fun r => inner_tidies (.listxattr r size caller) rfl)
  | removexattr ino name caller =>
      exact reply (node fun n => onPath_tidies n fun r =>
        inner_tidies (.removexattr r name caller) rfl)
  | «open» ino flags caller =>
      exact reply (scope_restores fun ref => (call_restores (onPath_tidies _ fun r =>
        inner_tidies (.open r flags caller) rfl)).bind (bindFile_restores ino))
  | read ino fh offset size caller =>
      exact reply (file fun n h => onNode_tidies n fun r =>
        inner_tidies (.read r h offset size caller) rfl)
  | write ino fh data offset caller =>
      exact reply (file fun n h => onNode_tidies n fun r =>
        inner_tidies (.write r h data offset caller) rfl)
  | flush ino fh caller =>
      exact reply (file fun n h => onNode_tidies n fun r => inner_tidies (.flush r h caller) rfl)
  | fsync ino fh datasync caller =>
      exact reply (file fun n h => onNode_tidies n fun r =>
        inner_tidies (.fsync r h datasync caller) rfl)
  | fallocate ino fh mode offset length caller =>
      exact reply (file fun n h => onNode_tidies n fun r =>
        inner_tidies (.fallocate r h mode offset length caller) rfl)
  | lseek ino fh offset whence caller =>
      exact reply (file fun n h => onNode_tidies n fun r =>
        inner_tidies (.lseek r h offset whence caller) rfl)
  | getlk ino fh owner requested caller =>
      exact reply (file fun n h => onNode_tidies n fun r =>
        inner_tidies (.getlk r h owner requested caller) rfl)
  | setlk ino fh owner lock sleep caller =>
      exact reply (file fun n h => onNode_tidies n fun r =>
        inner_tidies (.setlk r h owner lock sleep caller) rfl)
  | flock ino fh operation caller =>
      exact reply (file fun n h => onNode_tidies n fun r =>
        inner_tidies (.flock r h operation caller) rfl)
  | release ino fh caller =>
      exact (releaseHandle_restores files_restores fun n h => onNode_tidies n fun r =>
        inner_tidies (.release r h caller) rfl).bind fun _ => .ret
  | opendir ino flags caller =>
      exact reply (scope_restores fun ref =>
        (call_restores (opendir_tidies _ flags caller)).bind (bindDir_restores ino))
  | readdir ino fh offset caller => exact reply (readdir_restores ino fh offset caller)
  | readdirplus ino fh offset caller => exact reply (readdirplus_restores ino fh offset caller)
  | fsyncdir ino fh datasync caller =>
      exact reply (scope_restores fun ref => withDir_restores fun h =>
        call_restores (onNode_tidies _ fun r => inner_tidies (.fsyncdir r h.inner datasync caller) rfl))
  | releasedir ino fh caller =>
      exact (releaseHandle_restores dirs_restores fun n h => onNode_tidies n fun r =>
        inner_tidies (.releasedir r h.inner caller) rfl).bind fun _ => .ret
  | lookup parent name caller =>
      refine reply ((call_restores (lookup_tidies parent name caller)).bind fun found => ?_)
      cases found with
      | none => exact .ret
      | some id => exact (entryFor_restores id caller).bind fun _ => .ret
  | mknod parent name mode rdev umask caller =>
      exact reply (entry (mknod_tidies parent name mode rdev umask caller))
  | mkdir parent name mode umask caller =>
      exact reply (entry (mkdir_tidies parent name mode umask caller))
  | symlink parent name target caller =>
      exact reply (entry (symlink_tidies parent name target caller))
  | link ino newparent newname caller =>
      exact reply (entry (link_tidies ino newparent newname caller))
  | unlink parent name caller =>
      exact reply (call_restores (unlink_tidies parent name caller))
  | rmdir parent name caller =>
      exact reply (call_restores (rmdir_tidies parent name caller))
  | rename parent name newparent newname flags caller =>
      exact reply (call_restores (rename_tidies parent name newparent newname flags caller))
  | create parent name mode umask flags caller =>
      refine reply ((call_restores (create_tidies parent name mode umask flags caller)).bind
        fun made => ?_)
      exact (entryFor_restores made.1 caller).bind fun _ =>
        (bindFile_restores made.1 made.2).bind fun _ => .ret
  | copyFileRange ino offIn inoOut offOut len flags caller => exact reply (call_restores .exit)

end Requests

end TypedFuse
