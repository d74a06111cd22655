import TypedFuse.Runtime.Handles
import TypedFuse.Runtime.Identity

/-!
# The runtime as a shared machine

A filesystem callback is a program over `CxOp`: the methods of `Cx`, dropping a `NodeRef`, and
whatever operations of its own the filesystem has (`FsTypes.Ext`); a directory read can also offer
entries to its sink.  A request is a program over `RtOp`, whose operations are the critical
sections of the node table, of the handle table and of a handle record, so that interleavings are
as fine as the mutexes of `runtime.rs`.  A panic is an answer (`none`) of the operation that
panics; what the thread unwinds through is up to its program.

`World` is the state these act on.  The leases that callbacks hold (`kept`) are part of it, since
a filesystem may keep a `NodeRef` beyond the request that took it.
-/

namespace TypedFuse

open Std Prog

/-- The associated types of a `NodeFs`, and the operations of its own that its callbacks use. -/
structure FsTypes where
  Node : Type
  Handle : Type
  DirHandle : Type
  Ext : Sig

variable {K : FsTypes}

/-! ## Operations of a callback -/

/-- What a callback does through `Cx`, a `NodeRef` or the filesystem's own state. -/
inductive CxOp (K : FsTypes)
  | get (id : NodeId)
  | drop (r : NodeRef K.Node)
  | contains (id : NodeId)
  | insert (payload : K.Node) (parent : NodeId)
  | reparent (id newParent : NodeId)
  | addLink (id : NodeId)
  | removeLink (id : NodeId)
  | ext (e : K.Ext.Op)

def CxOp.Res : CxOp K → Type
  | .get _ => Option (Option (NodeRef K.Node))
  | .drop _ => Unit
  | .contains _ => Bool
  | .insert _ _ => Option NodeId
  | .reparent _ _ => Unit
  | .addLink _ => Option Unit
  | .removeLink _ => Unit
  | .ext e => K.Ext.Res e

/-- A callback's operation, or an entry it offers to the sink of type `O` it was given.  The sink's
answer `none` is a panic inside it. -/
inductive CbOp (K : FsTypes) (O : Type)
  | cx (o : CxOp K)
  | offer (entry : O)

def CbOp.Res {O : Type} : CbOp K O → Type
  | .cx o => o.Res
  | .offer _ => Option Bool

/-- The operations of a callback that may offer entries of type `O`. -/
abbrev cbSig (K : FsTypes) (O : Type) : Sig := ⟨CbOp K O, CbOp.Res⟩

/-- A callback that is given a sink for entries of type `O`. -/
abbrev ReadCallback (K : FsTypes) (O α : Type) := Prog (cbSig K O) Exit α

/-- A callback without a sink. -/
abbrev Callback (K : FsTypes) (α : Type) := ReadCallback K Empty α

/-- A panic, where it is the only way to leave early. -/
inductive Panicked
  | panicked

/-- A callback that cannot fail. -/
abbrev TotalCallback (K : FsTypes) (α : Type) := Prog (cbSig K Empty) Panicked α

/-- What `DirSink::add` is given. -/
structure DirOffer where
  name : OsStr
  id : NodeId
  kind : FileKind
  nextOffset : Nat
deriving DecidableEq, Repr

/-- What `PlusDirSink::add` is given. -/
structure PlusOffer where
  name : OsStr
  id : NodeId
  attr : NodeAttr
  nextOffset : Nat
deriving DecidableEq, Repr

/-- What `RuntimePlusSink::add` is given. -/
structure PlusEntry where
  name : OsStr
  entry : EntryReply
  nextOffset : Nat
deriving DecidableEq, Repr

/-! ## Operations of a request -/

/-- The sections on one map of the handle table and on its records. -/
inductive HandleOp
  | find (fh : Nat)
  | acquire (fh : Nat)
  | scan (ino : Nat)
  | unlease (fh : Nat)
  | remove (ino fh : Nat)
  | close (fh : Nat)
  | take (fh : Nat)

def HandleOp.Res (P : Type) : HandleOp → Type
  | .find _ => Option NodeId
  | .acquire _ => Option (Option P)
  | .scan _ => Option (Option (Nat × P))
  | .unlease _ => Unit
  | .remove _ _ => Bool
  | .close _ => Unit
  | .take _ => P

/-- One atomic operation of a request.  `offerDir` and `offerPlus` are calls of the sink that a
read of the directory `ino` was given. -/
inductive RtOp (K : FsTypes)
  | cx (o : CxOp K)
  | get (id : NodeId)
  | dropRef (r : NodeRef K.Node)
  | retainLookup (id : NodeId)
  | generationOf (id : NodeId)
  | parentOf (ino : Nat)
  | beginForget (ino nlookup : Nat)
  | maybeDrop (id : NodeId)
  | addOpen (ino : Nat)
  | removeOpen (ino : Nat)
  | hasOpens (ino : Nat)
  | file (o : HandleOp)
  | dir (o : HandleOp)
  | addFile (node : NodeId) (handle : K.Handle)
  | addDir (node : NodeId) (handle : K.DirHandle)
  | offerDir (ino : Nat) (entry : DirOffer)
  | offerPlus (ino : Nat) (entry : PlusEntry)

def RtOp.Res : RtOp K → Type
  | .cx o => o.Res
  | .get _ => Option (Option (NodeRef K.Node))
  | .dropRef _ => Unit
  | .retainLookup _ => Option (Option Nat)
  | .generationOf _ => Option Nat
  | .parentOf _ => Option NodeId
  | .beginForget _ _ => Option (Option (Option (NodeRef K.Node)))
  | .maybeDrop _ => Unit
  | .addOpen _ => Option Bool
  | .removeOpen _ => Unit
  | .hasOpens _ => Bool
  | .file o => o.Res K.Handle
  | .dir o => o.Res K.DirHandle
  | .addFile _ _ => Option Nat
  | .addDir _ _ => Option Nat
  | .offerDir _ _ => Bool
  | .offerPlus _ _ => Bool

abbrev rtSig (K : FsTypes) : Sig := ⟨RtOp K, RtOp.Res⟩

/-- What a thread of the runtime does, a request or a part of one. -/
abbrev Action (K : FsTypes) (α : Type) := Prog (rtSig K) Exit α

/-! ## The world -/

structure World (K : FsTypes) (X : Type) where
  table : NodeTable K.Node
  /-- The leases of the `NodeRef`s that callbacks hold. -/
  kept : Multiset Lease
  handles : HandleTable K.Handle K.DirHandle
  ext : X

/-- What one section on a map of the handle table does. -/
def Handles.step {P : Type} : (o : HandleOp) → Handles P → o.Res P → Handles P → Prop
  | .find fh, h, r, h' => r = h.find fh ∧ h' = h
  | .acquire fh, h, r, h' => h.acquire fh = (r, h')
  | .scan ino, h, r, h' => h.scan ino = (r, h')
  | .unlease fh, h, _, h' => h' = h.unlease fh
  | .remove ino fh, h, r, h' => h.remove ino fh = (r, h')
  | .close fh, h, _, h' => h' = h.close fh
  | .take fh, h, r, h' => h.take fh = some (r, h')

namespace World

/-- What an operation of a callback does.  A reference can be dropped only by who has it. -/
def cxStep (X : Machine K.Ext) :
    (o : CxOp K) → World K X.State → o.Res → World K X.State → Prop
  | .get id, w, r, w' => r = (w.table.get id).1 ∧
      w' = { w with table := (w.table.get id).2, kept := taken r.join + w.kept }
  | .drop ref, w, _, w' => ref.lease ∈ w.kept ∧
      w' = { w with table := w.table.dropRef ref.lease, kept := w.kept.erase ref.lease }
  | .contains id, w, r, w' => r = w.table.contains id ∧ w' = w
  | .insert payload parent, w, r, w' => r = (w.table.insert payload parent).1 ∧
      w' = { w with table := (w.table.insert payload parent).2 }
  | .reparent id newParent, w, _, w' => w' = { w with table := w.table.reparent id newParent }
  | .addLink id, w, r, w' => r = (w.table.addLink id).1 ∧
      w' = { w with table := (w.table.addLink id).2 }
  | .removeLink id, w, _, w' => w' = { w with table := w.table.removeLink id }
  | .ext e, w, r, w' => ∃ x, X.step e w.ext r x ∧ w' = { w with ext := x }

/-- What an operation of a request does.  The sink's answer is its caller's business. -/
def step (X : Machine K.Ext) : (o : RtOp K) → World K X.State → o.Res → World K X.State → Prop
  | .cx o, w, r, w' => cxStep X o w r w'
  | .get id, w, r, w' => r = (w.table.get id).1 ∧ w' = { w with table := (w.table.get id).2 }
  | .dropRef ref, w, _, w' => w' = { w with table := w.table.dropRef ref.lease }
  | .retainLookup id, w, r, w' => r = (w.table.retainLookup id).1 ∧
      w' = { w with table := (w.table.retainLookup id).2 }
  | .generationOf id, w, r, w' => r = w.table.generationOf id ∧ w' = w
  | .parentOf ino, w, r, w' => r = w.table.parentOf ino ∧ w' = w
  | .beginForget ino nlookup, w, r, w' => r = (w.table.beginForget ino nlookup).1 ∧
      w' = { w with table := (w.table.beginForget ino nlookup).2 }
  | .maybeDrop id, w, _, w' => w' = { w with table := w.table.maybeDrop id }
  | .addOpen ino, w, r, w' => r = (w.table.addOpen ino).1 ∧
      w' = { w with table := (w.table.addOpen ino).2 }
  | .removeOpen ino, w, _, w' => w' = { w with table := w.table.removeOpen ino }
  | .hasOpens ino, w, r, w' => r = w.table.hasOpens ino ∧ w' = w
  | .file o, w, r, w' => ∃ files, w.handles.files.step o r files ∧
      w' = { w with handles := { w.handles with files } }
  | .dir o, w, r, w' => ∃ dirs, w.handles.dirs.step o r dirs ∧
      w' = { w with handles := { w.handles with dirs } }
  | .addFile node handle, w, r, w' => r = (w.handles.addFile node handle).1 ∧
      w' = { w with handles := (w.handles.addFile node handle).2 }
  | .addDir node handle, w, r, w' => r = (w.handles.addDir node handle).1 ∧
      w' = { w with handles := (w.handles.addDir node handle).2 }
  | .offerDir _ _, w, _, w' => w' = w
  | .offerPlus _ _, w, _, w' => w' = w

end World

/-- The machine the requests of one runtime share; `X` is the filesystem's own. -/
def runtime (X : Machine K.Ext) : Machine (rtSig K) := ⟨World K X.State, World.step X⟩

/-! ## Running the machine

The same steps as functions, for a filesystem whose own operations compute and a sink that always
gives the same answer. -/

def Handles.exec {P : Type} : (o : HandleOp) → Handles P → Option (o.Res P × Handles P)
  | .find fh, h => some (h.find fh, h)
  | .acquire fh, h => some (h.acquire fh)
  | .scan ino, h => some (h.scan ino)
  | .unlease fh, h => some ((), h.unlease fh)
  | .remove ino fh, h => some (h.remove ino fh)
  | .close fh, h => some ((), h.close fh)
  | .take fh, h => h.take fh

theorem Handles.exec_step {P : Type} {o : HandleOp} {h h' : Handles P} {r : o.Res P}
    (run : Handles.exec o h = some (r, h')) : h.step o r h' := by
  cases o with
  | find fh => cases run; exact ⟨rfl, rfl⟩
  | acquire fh => exact Option.some.inj run
  | scan ino => exact Option.some.inj run
  | unlease fh => cases run; exact rfl
  | remove ino fh => exact Option.some.inj run
  | close fh => cases run; exact rfl
  | take fh => exact run

namespace World

def cxExec {X : Type} (ext : (e : K.Ext.Op) → X → Option (K.Ext.Res e × X)) :
    (o : CxOp K) → World K X → Option (o.Res × World K X)
  | .get id, w =>
    let (r, table) := w.table.get id
    some (r, { w with table, kept := taken r.join + w.kept })
  | .drop ref, w =>
    if ref.lease ∈ w.kept then
      some ((), { w with table := w.table.dropRef ref.lease, kept := w.kept.erase ref.lease })
    else none
  | .contains id, w => some (w.table.contains id, w)
  | .insert payload parent, w =>
    let (r, table) := w.table.insert payload parent
    some (r, { w with table })
  | .reparent id newParent, w => some ((), { w with table := w.table.reparent id newParent })
  | .addLink id, w =>
    let (r, table) := w.table.addLink id
    some (r, { w with table })
  | .removeLink id, w => some ((), { w with table := w.table.removeLink id })
  | .ext e, w =>
    match ext e w.ext with
    | some (r, x) => some (r, { w with ext := x })
    | none => none

def exec {X : Type} (ext : (e : K.Ext.Op) → X → Option (K.Ext.Res e × X)) (took : Bool) :
    (o : RtOp K) → World K X → Option (o.Res × World K X)
  | .cx o, w => cxExec ext o w
  | .get id, w =>
    let (r, table) := w.table.get id
    some (r, { w with table })
  | .dropRef ref, w => some ((), { w with table := w.table.dropRef ref.lease })
  | .retainLookup id, w =>
    let (r, table) := w.table.retainLookup id
    some (r, { w with table })
  | .generationOf id, w => some (w.table.generationOf id, w)
  | .parentOf ino, w => some (w.table.parentOf ino, w)
  | .beginForget ino nlookup, w =>
    let (r, table) := w.table.beginForget ino nlookup
    some (r, { w with table })
  | .maybeDrop id, w => some ((), { w with table := w.table.maybeDrop id })
  | .addOpen ino, w =>
    let (r, table) := w.table.addOpen ino
    some (r, { w with table })
  | .removeOpen ino, w => some ((), { w with table := w.table.removeOpen ino })
  | .hasOpens ino, w => some (w.table.hasOpens ino, w)
  | .file o, w => (w.handles.files.exec o).map fun (r, files) =>
    (r, { w with handles := { w.handles with files } })
  | .dir o, w => (w.handles.dirs.exec o).map fun (r, dirs) =>
    (r, { w with handles := { w.handles with dirs } })
  | .addFile node handle, w =>
    let (r, handles) := w.handles.addFile node handle
    some (r, { w with handles })
  | .addDir node handle, w =>
    let (r, handles) := w.handles.addDir node handle
    some (r, { w with handles })
  | .offerDir _ _, w => some (took, w)
  | .offerPlus _ _, w => some (took, w)

variable {X : Machine K.Ext} {ext : (e : K.Ext.Op) → X.State → Option (K.Ext.Res e × X.State)}
  {took : Bool} {w w' : World K X.State}

theorem cxExec_step (sound : ∀ e x r x', ext e x = some (r, x') → X.step e x r x') {o : CxOp K}
    {r : o.Res} (run : cxExec ext o w = some (r, w')) : cxStep X o w r w' := by
  cases o with
  | get id => cases run; exact ⟨rfl, rfl⟩
  | drop ref =>
      simp only [cxExec] at run
      split at run
      · cases run
        exact ⟨‹_›, rfl⟩
      · cases run
  | contains id => cases run; exact ⟨rfl, rfl⟩
  | insert payload parent => cases run; exact ⟨rfl, rfl⟩
  | reparent id newParent => cases run; exact rfl
  | addLink id => cases run; exact ⟨rfl, rfl⟩
  | removeLink id => cases run; exact rfl
  | ext e =>
      simp only [cxExec] at run
      split at run
      · rename_i r x step
        cases run
        exact ⟨x, sound e _ _ x step, rfl⟩
      · cases run

theorem exec_step (sound : ∀ e x r x', ext e x = some (r, x') → X.step e x r x') {o : RtOp K}
    {r : o.Res} (run : exec ext took o w = some (r, w')) : step X o w r w' := by
  cases o with
  | cx o => exact cxExec_step sound run
  | get id => cases run; exact ⟨rfl, rfl⟩
  | dropRef ref => cases run; exact rfl
  | retainLookup id => cases run; exact ⟨rfl, rfl⟩
  | generationOf id => cases run; exact ⟨rfl, rfl⟩
  | parentOf ino => cases run; exact ⟨rfl, rfl⟩
  | beginForget ino nlookup => cases run; exact ⟨rfl, rfl⟩
  | maybeDrop id => cases run; exact rfl
  | addOpen ino => cases run; exact ⟨rfl, rfl⟩
  | removeOpen ino => cases run; exact rfl
  | hasOpens ino => cases run; exact ⟨rfl, rfl⟩
  | file o =>
      obtain ⟨⟨r, files⟩, step, eq⟩ := Option.map_eq_some_iff.mp run
      cases eq
      exact ⟨files, Handles.exec_step step, rfl⟩
  | dir o =>
      obtain ⟨⟨r, dirs⟩, step, eq⟩ := Option.map_eq_some_iff.mp run
      cases eq
      exact ⟨dirs, Handles.exec_step step, rfl⟩
  | addFile node handle => cases run; exact ⟨rfl, rfl⟩
  | addDir node handle => cases run; exact ⟨rfl, rfl⟩
  | offerDir ino entry => cases run; exact rfl
  | offerPlus ino entry => cases run; exact rfl

end World

/-! ## Overflows -/

/-- The answers of a counter at its type's maximum. -/
def CxOp.overflows : (o : CxOp K) → o.Res → Bool
  | .get _, r => r.isNone
  | .insert _ _, r => r.isNone
  | .addLink _, r => r.isNone
  | _, _ => false

def HandleOp.overflows {P : Type} : (o : HandleOp) → o.Res P → Bool
  | .acquire _, r => r.isNone
  | .scan _, r => r.isNone
  | _, _ => false

def RtOp.overflows : (o : RtOp K) → o.Res → Bool
  | .cx o, r => o.overflows r
  | .get _, r => r.isNone
  | .retainLookup _, r => r.isNone
  | .beginForget _ _, r => r.isNone
  | .addOpen _, r => r.isNone
  | .file o, r => o.overflows r
  | .dir o, r => o.overflows r
  | .addFile _ _, r => r.isNone
  | .addDir _ _, r => r.isNone
  | _, _ => false

/-- The same machine while no counter reaches its type's maximum. -/
def calm (X : Machine K.Ext) : Machine (rtSig K) :=
  (runtime X).without fun o r => RtOp.overflows o r = true

def World.calmExec {X : Type} (ext : (e : K.Ext.Op) → X → Option (K.Ext.Res e × X)) (took : Bool)
    (o : RtOp K) (w : World K X) : Option (o.Res × World K X) :=
  (World.exec ext took o w).filter fun r => !o.overflows r.1

theorem World.calmExec_step {X : Machine K.Ext}
    (ext : (e : K.Ext.Op) → X.State → Option (K.Ext.Res e × X.State)) (took : Bool)
    (sound : ∀ e x r x', ext e x = some (r, x') → X.step e x r x') (o : RtOp K)
    (w : World K X.State) (r : o.Res) (w' : World K X.State)
    (run : World.calmExec ext took o w = some (r, w')) : (calm X).step o w r w' := by
  obtain ⟨run, calm⟩ := Option.filter_eq_some_iff.mp run
  exact ⟨World.exec_step sound run, by simpa using calm⟩

/-- The world after `Runtime::new` and before `populate`. -/
def World.new {X : Type} (root : K.Node) (ext : X) : World K X where
  table := .withRoot root
  kept := 0
  handles := .new
  ext := ext

end TypedFuse
