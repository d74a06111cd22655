import TypedFuse.Path.Listings
import TypedFuse.Path.Namespace
import TypedFuse.Runtime.Requests

/-!
# The path adapter

`PathNodeFs` (`path_fs.rs`) as a filesystem of the runtime.  Its callbacks are programs over the
operations of `Cx` and over `PathOp`: taking and giving back the `operations` lock and the
namespace mutex, the mutexes and atomics inside nodes and directory handles, and calls of the
`PathFilesystem` it wraps, which is a parameter (`Backing`).

The namespace mutex is held over operations of `Cx`, so `lock` and `unlock` are two operations.
`lock` hands out the namespace and `unlock` puts back what the section made of it; its argument says
which section it opens.  Guards are scopes: what a guard protects is given up on every way out.
-/

namespace TypedFuse

open Std Prog

/-- The associated types of a `PathFilesystem`. -/
structure PathTypes where
  NodeState : Type
  Handle : Type
  DirHandle : Type

/-- `PathNode`.  Its `entry_attr` and `entries_epoch` are in `PathState`, under its key. -/
structure PathNode (P : PathTypes) where
  key : Nat
  state : P.NodeState

/-- `PathNodeRef`.  Its `state` is a reference into the node. -/
structure PathNodeRef (P : PathTypes) where
  path : Option Path
  node : PathNode P

structure PathEntry (P : PathTypes) where
  attr : NodeAttr
  state : P.NodeState

/-- `PathDirHandle`, with the place of its listings in `PathState`. -/
structure PathDirHandle (P : PathTypes) where
  inner : P.DirHandle
  listings : Nat

variable {P : PathTypes}

/-! ## Calls of the wrapped filesystem -/

/-- A call of a `PathFilesystem` method that can fail. -/
inductive InnerCall (P : PathTypes)
  | lookup (parent : PathNodeRef P) (name : OsStr) (caller : Caller)
  | getattr (node : PathNodeRef P) (handle : Option P.Handle) (caller : Caller)
  | setattr (node : PathNodeRef P) (handle : Option P.Handle) (set : SetAttr) (caller : Caller)
  | readlink (node : PathNodeRef P) (caller : Caller)
  | mknod (parent : PathNodeRef P) (name : OsStr) (mode rdev umask : Nat) (caller : Caller)
  | mkdir (parent : PathNodeRef P) (name : OsStr) (mode umask : Nat) (caller : Caller)
  | symlink (parent : PathNodeRef P) (name : OsStr) (target : Path) (caller : Caller)
  | unlink (parent : PathNodeRef P) (name : OsStr) (caller : Caller)
  | rmdir (parent : PathNodeRef P) (name : OsStr) (caller : Caller)
  | rename (parent : PathNodeRef P) (name : OsStr) (newparent : PathNodeRef P) (newname : OsStr)
      (caller : Caller)
  | link (node newparent : PathNodeRef P) (newname : OsStr) (caller : Caller)
  | «open» (node : PathNodeRef P) (flags : Nat) (caller : Caller)
  | read (node : PathNodeRef P) (handle : P.Handle) (offset size : Nat) (caller : Caller)
  | write (node : PathNodeRef P) (handle : P.Handle) (data : List UInt8) (offset : Nat)
      (caller : Caller)
  | flush (node : PathNodeRef P) (handle : P.Handle) (caller : Caller)
  | release (node : PathNodeRef P) (handle : P.Handle) (caller : Caller)
  | fsync (node : PathNodeRef P) (handle : P.Handle) (datasync : Bool) (caller : Caller)
  | opendir (node : PathNodeRef P) (flags : Nat) (caller : Caller)
  | listDir (node : PathNodeRef P) (handle : P.DirHandle) (caller : Caller)
  | releasedir (node : PathNodeRef P) (handle : P.DirHandle) (caller : Caller)
  | fsyncdir (node : PathNodeRef P) (handle : P.DirHandle) (datasync : Bool) (caller : Caller)
  | statfs (path : Path) (caller : Caller)
  | setxattr (node : PathNodeRef P) (name : OsStr) (value : List UInt8) (flags : Nat)
      (caller : Caller)
  | getxattr (node : PathNodeRef P) (name : OsStr) (size : Nat) (caller : Caller)
  | listxattr (node : PathNodeRef P) (size : Nat) (caller : Caller)
  | removexattr (node : PathNodeRef P) (name : OsStr) (caller : Caller)
  | access (node : PathNodeRef P) (mask : Nat) (caller : Caller)
  | create (parent : PathNodeRef P) (name : OsStr) (mode umask flags : Nat) (caller : Caller)
  | fallocate (node : PathNodeRef P) (handle : P.Handle) (mode offset length : Nat)
      (caller : Caller)
  | lseek (node : PathNodeRef P) (handle : P.Handle) (offset whence : Nat) (caller : Caller)
  | getlk (node : PathNodeRef P) (handle : P.Handle) (owner : Nat) (lock : FileLock)
      (caller : Caller)
  | setlk (node : PathNodeRef P) (handle : P.Handle) (owner : Nat) (lock : FileLock) (sleep : Bool)
      (caller : Caller)
  | flock (node : PathNodeRef P) (handle : P.Handle) (operation : Nat) (caller : Caller)

/-- What a call returns if it succeeds. -/
def InnerCall.Val : InnerCall P → Type
  | .lookup _ _ _ => Option (PathEntry P)
  | .getattr _ _ _ => NodeAttr
  | .setattr _ _ _ _ => NodeAttr
  | .readlink _ _ => Path
  | .mknod _ _ _ _ _ _ => PathEntry P
  | .mkdir _ _ _ _ _ => PathEntry P
  | .symlink _ _ _ _ => PathEntry P
  | .unlink _ _ _ => Unit
  | .rmdir _ _ _ => Unit
  | .rename _ _ _ _ _ => Unit
  | .link _ _ _ _ => NodeAttr
  | .open _ _ _ => Opened P.Handle
  | .read _ _ _ _ _ => List UInt8
  | .write _ _ _ _ _ => Nat
  | .flush _ _ _ => Unit
  | .release _ _ _ => Unit
  | .fsync _ _ _ _ => Unit
  | .opendir _ _ _ => Opened P.DirHandle
  | .listDir _ _ _ => DirBuffer P.NodeState
  | .releasedir _ _ _ => Unit
  | .fsyncdir _ _ _ _ => Unit
  | .statfs _ _ => StatFs
  | .setxattr _ _ _ _ _ => Unit
  | .getxattr _ _ _ _ => XattrReply
  | .listxattr _ _ _ => XattrReply
  | .removexattr _ _ _ => Unit
  | .access _ _ _ => Unit
  | .create _ _ _ _ _ _ => PathEntry P × Opened P.Handle
  | .fallocate _ _ _ _ _ _ => Unit
  | .lseek _ _ _ _ _ => Nat
  | .getlk _ _ _ _ _ => FileLock
  | .setlk _ _ _ _ _ _ => Unit
  | .flock _ _ _ _ => Unit

/-- How a call ends: with a value, with an error, or in a panic. -/
abbrev InnerCall.Res (c : InnerCall P) : Type := Option (Except Errno c.Val)

/-- The wrapped filesystem: what a call may answer and do to its state. -/
structure Backing (P : PathTypes) where
  State : Type
  call : (c : InnerCall P) → State → c.Res → State → Prop
  forget : PathNodeRef P → State → Option Unit → State → Prop

/-! ## Operations of the adapter -/

/-- A section of the namespace mutex. -/
inductive NamespaceUse
  | idForNode (key : Nat)
  | pathFor (id : NodeId)
  | insert (dentry : Dentry)
  | remove (dentry : Dentry)
  | rename (old new : Dentry)
  | addAlias (id : NodeId) (dentry : Dentry)
deriving DecidableEq

inductive PathOp (P : PathTypes)
  | readLock
  | readUnlock
  | writeLock
  | writeUnlock
  | lock (use : NamespaceUse)
  | unlock (ns : Namespace)
  /-- A recursion that does not end. -/
  | diverge
  | setEntryAttr (key : Nat) (attr : NodeAttr)
  | takeEntryAttr (key : Nat)
  | entriesChanged (key : Nat)
  | entriesEpoch (key : Nat)
  | newListings
  | resume (listings generation start : Nat)
  | push (listings epoch : Nat) (buffer : DirBuffer P.NodeState)
  | finish (listings : Nat) (listing : DirListing P.NodeState) (stop : Nat)
  | inner (c : InnerCall P)
  | innerForget (node : PathNodeRef P)

def PathOp.Res : PathOp P → Type
  | .lock _ => Namespace
  | .diverge => Empty
  | .takeEntryAttr _ => Option NodeAttr
  | .entriesEpoch _ => Nat
  | .newListings => Nat
  | .resume _ _ _ => Option (DirRead P.NodeState)
  | .push _ _ _ => DirListing P.NodeState
  | .inner c => c.Res
  | .innerForget _ => Option Unit
  | _ => Unit

abbrev pathSig (P : PathTypes) : Sig := ⟨PathOp P, PathOp.Res⟩

/-- The state of a `PathNodeFs`, of its nodes and of its directory handles. -/
structure PathState (P : PathTypes) (B : Type) where
  readers : Nat := 0
  writer : Bool := false
  ns : Namespace := .new
  locked : Bool := false
  entryAttr : ExtTreeMap Nat NodeAttr := ∅
  epochs : ExtTreeMap Nat Nat := ∅
  listings : ExtTreeMap Nat (DirListings P.NodeState) := ∅
  nextListings : Nat := 0
  backing : B

namespace PathState

variable {B : Type} (x : PathState P B)

/-- `entries_epoch`. -/
def epoch (key : Nat) : Nat := x.epochs.getD key 0

/-- The listings at one place. -/
def listingsAt (place : Nat) : DirListings P.NodeState := x.listings.getD place {}

def setListings (place : Nat) (ls : DirListings P.NodeState) : PathState P B :=
  { x with listings := x.listings.insert place ls }

/-- What an operation of the adapter does.  Locks wait. -/
def step (F : Backing P) :
    (o : PathOp P) → PathState P F.State → o.Res → PathState P F.State → Prop
  | .readLock, x, _, x' => x.writer = false ∧ x' = { x with readers := x.readers + 1 }
  | .readUnlock, x, _, x' => x' = { x with readers := x.readers - 1 }
  | .writeLock, x, _, x' => x.writer = false ∧ x.readers = 0 ∧ x' = { x with writer := true }
  | .writeUnlock, x, _, x' => x' = { x with writer := false }
  | .lock _, x, r, x' => x.locked = false ∧ r = x.ns ∧ x' = { x with locked := true }
  | .unlock ns, x, _, x' => x' = { x with ns, locked := false }
  | .diverge, _, _, _ => False
  | .setEntryAttr key attr, x, _, x' => x' = { x with entryAttr := x.entryAttr.insert key attr }
  | .takeEntryAttr key, x, r, x' =>
      r = x.entryAttr[key]? ∧ x' = { x with entryAttr := x.entryAttr.erase key }
  | .entriesChanged key, x, _, x' =>
      x' = { x with epochs := x.epochs.insert key ((x.epoch key + 1) % 2 ^ 64) }
  | .entriesEpoch key, x, r, x' => r = x.epoch key ∧ x' = x
  | .newListings, x, r, x' => r = x.nextListings ∧
      x' = { x.setListings x.nextListings {} with nextListings := x.nextListings + 1 }
  | .resume place generation start, x, r, x' =>
      r = (x.listingsAt place).resume generation start ∧ x' = x
  | .push place epoch buffer, x, r, x' => r = (x.listingsAt place).fresh epoch buffer ∧
      x' = x.setListings place ((x.listingsAt place).push epoch buffer)
  | .finish place listing stop, x, _, x' =>
      x' = x.setListings place ((x.listingsAt place).finish listing stop)
  | .inner c, x, r, x' => ∃ b, F.call c x.backing r b ∧ x' = { x with backing := b }
  | .innerForget node, x, r, x' =>
      ∃ b, F.forget node x.backing r b ∧ x' = { x with backing := b }

end PathState

/-- The machine of the adapter's own state. -/
abbrev pathMachine (F : Backing P) : Machine (pathSig P) := ⟨PathState P F.State, PathState.step F⟩

abbrev pathTypes (P : PathTypes) : FsTypes where
  Node := PathNode P
  Handle := P.Handle
  DirHandle := PathDirHandle P
  Ext := pathSig P

namespace PathNodeFs

variable {O ε α : Type}

/-- A part of a callback of the adapter. -/
abbrev Body (P : PathTypes) (O ε α : Type) := Prog (cbSig (pathTypes P) O) ε α

/-! ## Guards -/

def withRead (body : Body P O ε α) : Body P O ε α :=
  .op (.cx (.ext .readLock)) fun _ => body.andFinally (.op (.cx (.ext .readUnlock)) .ret)

def withWrite (body : Body P O ε α) : Body P O ε α :=
  .op (.cx (.ext .writeLock)) fun _ => body.andFinally (.op (.cx (.ext .writeUnlock)) .ret)

/-- A scope with `cx.get(id).ok_or(Errno::ENOENT)?`. -/
def withNode (id : NodeId) (body : PathNode P → Body P O Exit α) : Body P O Exit α :=
  .op (.cx (.get id)) fun
    | none => .exit .panic
    | some none => .exit (.errno .ENOENT)
    | some (some ref) => (body ref.record.payload).andFinally (.op (.cx (.drop ref)) .ret)

/-- Call the wrapped filesystem and pass its error on. -/
def inner (c : InnerCall P) : Body P O Exit c.Val :=
  .op (.cx (.ext (.inner c))) fun
    | none => .exit .panic
    | some (.error e) => .exit (.errno e)
    | some (.ok v) => .ret v

/-! ## Sections of the namespace -/

def nodeId (node : PathNode P) : Body P O ε (Option NodeId) :=
  .op (.cx (.ext (.lock (.idForNode node.key)))) fun ns =>
    .op (.cx (.ext (.unlock ns))) fun _ => .ret (ns.idForNode node.key)

/-- `mutex(&self.namespace).path_for(id)`. -/
def pathFor (id : NodeId) : Body P O ε (Option Path) :=
  .op (.cx (.ext (.lock (.pathFor id)))) fun ns =>
    match ns.pathFor id with
    | none => .op (.cx (.ext .diverge)) fun r => nomatch r
    | some path => .op (.cx (.ext (.unlock ns))) fun _ => .ret path

def nodePath (node : PathNode P) : Body P O ε (Option Path) :=
  nodeId node >>= fun
    | none => .ret none
    | some id => pathFor id

def path (id : NodeId) : Body P O Exit Path :=
  pathFor id >>= fun
    | none => .exit (.errno .ENOENT)
    | some path => .ret path

/-- `Namespace::insert`: the node of the name, and whether it is new.  A panic in the middle leaves
the key used up. -/
def insert (dentry : Dentry) (state : P.NodeState) : Body P O Exit (NodeId × Bool) :=
  .op (.cx (.ext (.lock (.insert dentry)))) fun ns =>
    match ns.byName[dentry]? with
    | some id => .op (.cx (.ext (.unlock ns))) fun _ => .ret (id, false)
    | none =>
      match checkedAdd 64 ns.nextKey with
      | none => .op (.cx (.ext (.unlock ns))) fun _ => .exit .panic
      | some next =>
        .op (.cx (.insert ⟨ns.nextKey, state⟩ dentry.parent)) fun
          | none => .op (.cx (.ext (.unlock { ns with nextKey := next }))) fun _ => .exit .panic
          | some id =>
            .op (.cx (.ext (.unlock (ns.inserted dentry id next)))) fun _ => .ret (id, true)

/-- Take a name away from its node, if it has one (`rollback_dentry`, and the end of
`remove_entry`). -/
def removeDentry (dentry : Dentry) : Body P O ε Unit :=
  .op (.cx (.ext (.lock (.remove dentry)))) fun ns =>
    match ns.remove dentry with
    | (none, ns) => .op (.cx (.ext (.unlock ns))) .ret
    | (some id, ns) => .op (.cx (.removeLink id)) fun _ => .op (.cx (.ext (.unlock ns))) .ret

/-- The section at the end of `rename`. -/
def renameDentry (old new : Dentry) : Body P O ε Unit :=
  .op (.cx (.ext (.lock (.rename old new)))) fun ns =>
    match ns.rename old new with
    | none => .op (.cx (.ext (.unlock ns))) .ret
    | some (none, source, ns) =>
      .op (.cx (.reparent source new.parent)) fun _ => .op (.cx (.ext (.unlock ns))) .ret
    | some (some replaced, source, ns) =>
      .op (.cx (.removeLink replaced)) fun _ =>
        .op (.cx (.reparent source new.parent)) fun _ => .op (.cx (.ext (.unlock ns))) .ret

/-- The end of `link`: the alias, and after the guard is gone the link. -/
def addAlias (id : NodeId) (dentry : Dentry) : Body P O Exit NodeId :=
  .op (.cx (.ext (.lock (.addAlias id dentry)))) fun ns =>
    .op (.cx (.ext (.unlock (ns.addAlias id dentry)))) fun _ =>
      .op (.cx (.addLink id)) fun
        | none => .exit .panic
        | some _ => .ret id

/-! ## Nodes and listed entries -/

def addNode (parent : NodeId) (name : OsStr) (entry : PathEntry P) : Body P O Exit NodeId :=
  insert ⟨parent, name⟩ entry.state >>= fun (id, _) =>
    withNode id (fun node => .op (.cx (.ext (.setEntryAttr node.key entry.attr))) .ret) >>= fun _ =>
      .ret id

/-- Offer one listed entry through `add`.  A child whose name this call put in is taken out again if
`add` rejects it. -/
def addListedEntry (this parent : NodeId) (entry : DirEntry P.NodeState)
    (add : NodeId → Body P O Exit Bool) : Body P O Exit Bool :=
  match entry.identity with
  | .current => add this
  | .parent => add parent
  | .child state =>
    insert ⟨this, entry.name⟩ state >>= fun (id, inserted) =>
      add id >>= fun accepted =>
        if accepted = false ∧ inserted = true then
          removeDentry ⟨this, entry.name⟩ >>= fun _ => .ret accepted
        else .ret accepted

/-! ## Directory reads -/

def directoryListing (dir : PathNode P) (path : Path) (handle : PathDirHandle P) (offset : Nat)
    (caller : Caller) : Body P O Exit (DirRead P.NodeState) :=
  let (generation, start) := splitCookie offset
  let refresh : Body P O Exit (DirRead P.NodeState) :=
    .op (.cx (.ext (.entriesEpoch dir.key))) fun epoch =>
      inner (.listDir ⟨some path, dir⟩ handle.inner caller) >>= fun buffer =>
        if maxListingLen < buffer.entries.length then .exit (.errno .EOVERFLOW)
        else .op (.cx (.ext (.push handle.listings epoch buffer))) fun listing =>
          .ret (.listing listing start true)
  if offset = 0 then refresh
  else .op (.cx (.ext (.resume handle.listings generation start))) fun
    | some read => .ret read
    | none => refresh

/-- What becomes of a listed entry before it is sent. -/
inductive Replayed (S : Type)
  | skip
  | send (entry : DirEntry S)
  | failed (e : Errno)

/-- Look a listed child up again if the directory has changed, or if a `plus` read has no attributes
for it. -/
def replayed (dir : PathNodeRef P) (stale plus : Bool) (caller : Caller)
    (listed : DirEntry P.NodeState) : Body P O Exit (Replayed P.NodeState) :=
  match listed.identity with
  | .child _ =>
    if stale || (plus && listed.attr.isNone) then
      .op (.cx (.ext (.inner (.lookup dir listed.name caller)))) fun
        | none => .exit .panic
        | some (.ok none) => .ret .skip
        | some (.ok (some found)) =>
          .ret (.send ⟨listed.name, found.attr.kind, some found.attr, .child found.state⟩)
        | some (.error e) =>
          .ret (if e = .ENOENT then .skip
            else if !plus || listed.attr.isSome then .send listed else .failed e)
    else .ret (.send listed)
  | _ => .ret (.send listed)

/-- The loop of `replay_listing` over the entries from `index` on: how many were accepted, and the
failure that ended it. -/
def replayFrom (generation : Nat)
    (current : DirEntry P.NodeState → Body P O Exit (Replayed P.NodeState))
    (emit : DirEntry P.NodeState → Nat → Body P O Exit Bool) :
    List (DirEntry P.NodeState) → (index accepted : Nat) → Body P O Exit (Nat × Option Errno)
  | [], _, accepted => .ret (accepted, none)
  | listed :: rest, index, accepted =>
    current listed >>= fun
      | .skip => replayFrom generation current emit rest (index + 1) accepted
      | .failed e => .ret (accepted, some e)
      | .send entry =>
        emit entry (listingCookie generation index) >>= fun took =>
          if took then replayFrom generation current emit rest (index + 1) (accepted + 1)
          else .ret (accepted, none)

def replayListing (dir : PathNode P) (path : Path) (listing : DirListing P.NodeState) (start : Nat)
    (plus : Bool) (caller : Caller) (emit : DirEntry P.NodeState → Nat → Body P O Exit Bool) :
    Body P O Exit Nat :=
  .op (.cx (.ext (.entriesEpoch dir.key))) fun (epoch : Nat) =>
    replayFrom listing.generation
        (replayed ⟨some path, dir⟩ (epoch != listing.epoch) plus caller) emit
        (listing.buffer.entries.drop start) start 0 >>= fun
      | (0, some e) => .exit (.errno e)
      | (accepted, _) => .ret accepted

/-- What `readdir` and `readdirplus` share; `offer` makes the sink's entry of a listed one, if it
can. -/
def readDirectory (node : PathNode P) (this parent : NodeId) (handle : PathDirHandle P)
    (offset : Nat) (plus : Bool) (caller : Caller)
    (offer : DirEntry P.NodeState → NodeId → Nat → Option O) : Body P O Exit Unit :=
  withRead <| nodePath node >>= fun
    | none => .exit (.errno .ENOENT)
    | some path => directoryListing node path handle offset caller >>= fun
      | .ended => .ret ()
      | .listing listing start owned =>
        replayListing node path listing start plus caller (fun entry next =>
          addListedEntry this parent entry fun id =>
            match offer entry id next with
            | none => .exit .panic
            | some o => .op (.offer o) fun
              | none => .exit .panic
              | some took => .ret took) >>= fun accepted =>
          if accepted = 0 ∧ owned = true then
            .op (.cx (.ext (.finish handle.listings listing start))) .ret
          else .ret ()

/-! ## The callbacks -/

/-- A callback on a node that may have lost its path. -/
def onNode (node : PathNode P) (f : PathNodeRef P → Body P O ε α) : Body P O ε α :=
  withRead (nodePath node >>= fun path => f ⟨path, node⟩)

/-- A callback on a node that needs a path. -/
def onPath (node : PathNode P) (f : PathNodeRef P → Body P O Exit α) : Body P O Exit α :=
  withRead (nodePath node >>= fun
    | none => .exit (.errno .ENOENT)
    | some path => f ⟨some path, node⟩)

/-- A callback that changes the names in a directory. -/
def changeIn (parent : NodeId) (f : PathNodeRef P → Body P O Exit α) : Body P O Exit α :=
  withWrite <| withNode parent fun node =>
    .op (.cx (.ext (.entriesChanged node.key))) fun _ =>
      path parent >>= fun p => f ⟨some p, node⟩

def forget (node : PathNode P) : Body P O Panicked Unit :=
  onNode node fun ref => .op (.cx (.ext (.innerForget ref))) fun
    | none => .exit .panicked
    | some _ => .ret ()

def getattr (node : PathNode P) (handle : Option P.Handle) (caller : Caller) :
    Body P O Exit NodeAttr :=
  onNode node fun ref => inner (.getattr ref handle caller)

def entryAttr (node : PathNode P) (caller : Caller) : Body P O Exit NodeAttr :=
  .op (.cx (.ext (.takeEntryAttr node.key))) fun
    | some attr => .ret attr
    | none => getattr node none caller

def wantsFallbackHandle (node : PathNode P) : Body P O ε Bool :=
  nodePath node >>= fun path => .ret path.isNone

def lookup (parent : NodeId) (name : OsStr) (caller : Caller) : Body P O Exit (Option NodeId) :=
  withRead <| withNode parent fun node =>
    path parent >>= fun p =>
      inner (.lookup ⟨some p, node⟩ name caller) >>= fun (found : Option (PathEntry P)) =>
        match found with
        | none => .ret none
        | some entry => addNode parent name entry >>= fun id => .ret (some id)

/-- `remove_entry`; the call is of `rmdir` or `unlink`. -/
def removeEntry (parent : NodeId) (name : OsStr) (call : PathNodeRef P → Body P O Exit Unit) :
    Body P O Exit Unit :=
  changeIn parent fun ref => call ref >>= fun _ => removeDentry ⟨parent, name⟩

def rename (parent : NodeId) (name : OsStr) (newparent : NodeId) (newname : OsStr) (flags : Nat)
    (caller : Caller) : Body P O Exit Unit :=
  if flags ≠ 0 then .exit (.errno .EOPNOTSUPP)
  else withWrite <| withNode parent fun oldNode => withNode newparent fun newNode =>
    .op (.cx (.ext (.entriesChanged oldNode.key))) fun _ =>
      .op (.cx (.ext (.entriesChanged newNode.key))) fun _ =>
        path parent >>= fun oldPath => path newparent >>= fun newPath =>
          inner (.rename ⟨some oldPath, oldNode⟩ name ⟨some newPath, newNode⟩ newname caller) >>=
            fun _ => renameDentry ⟨parent, name⟩ ⟨newparent, newname⟩

def link (id newparent : NodeId) (newname : OsStr) (caller : Caller) : Body P O Exit NodeId :=
  withWrite <| withNode id fun sourceNode => withNode newparent fun parentNode =>
    .op (.cx (.ext (.entriesChanged parentNode.key))) fun _ =>
      path id >>= fun source => path newparent >>= fun parent =>
        inner (.link ⟨some source, sourceNode⟩ ⟨some parent, parentNode⟩ newname caller) >>=
          fun _ => addAlias id ⟨newparent, newname⟩

def opendir (node : PathNode P) (flags : Nat) (caller : Caller) :
    Body P O Exit (Opened (PathDirHandle P)) :=
  onPath node fun ref => inner (.opendir ref flags caller) >>= fun (opened : Opened P.DirHandle) =>
    .op (.cx (.ext .newListings)) fun place => .ret ⟨⟨opened.handle, place⟩, opened.hints⟩

end PathNodeFs

open PathNodeFs in
/-- `impl NodeFs for PathNodeFs`. -/
def pathNodeFs (P : PathTypes) : NodeFs (pathTypes P) where
  forget := PathNodeFs.forget
  getattr := PathNodeFs.getattr
  entryAttr := PathNodeFs.entryAttr
  setattr node handle set caller := onNode node fun r => inner (.setattr r handle set caller)
  wantsFallbackHandle := PathNodeFs.wantsFallbackHandle
  lookup := PathNodeFs.lookup
  readlink node caller := onPath node fun r => inner (.readlink r caller)
  mknod parent name mode rdev umask caller :=
    changeIn parent fun r => inner (.mknod r name mode rdev umask caller) >>= addNode parent name
  mkdir parent name mode umask caller :=
    changeIn parent fun r => inner (.mkdir r name mode umask caller) >>= addNode parent name
  symlink parent name target caller :=
    changeIn parent fun r => inner (.symlink r name target caller) >>= addNode parent name
  unlink parent name caller := removeEntry parent name fun r => inner (.unlink r name caller)
  rmdir parent name caller := removeEntry parent name fun r => inner (.rmdir r name caller)
  rename := PathNodeFs.rename
  link := PathNodeFs.link
  «open» node flags caller := onPath node fun r => inner (.open r flags caller)
  read node handle offset size caller :=
    onNode node fun r => inner (.read r handle offset size caller)
  write node handle data offset caller :=
    onNode node fun r => inner (.write r handle data offset caller)
  flush node handle caller := onNode node fun r => inner (.flush r handle caller)
  release node handle caller := onNode node fun r => inner (.release r handle caller)
  fsync node handle datasync caller := onNode node fun r => inner (.fsync r handle datasync caller)
  opendir := PathNodeFs.opendir
  readdir node this parent handle offset caller :=
    readDirectory node this parent handle offset false caller fun e id next =>
      some ⟨e.name, id, e.kind, next⟩
  readdirplus node this parent handle offset caller :=
    readDirectory node this parent handle offset true caller fun e id next =>
      e.attr.map fun attr => ⟨e.name, id, attr, next⟩
  releasedir node handle caller := onNode node fun r => inner (.releasedir r handle.inner caller)
  fsyncdir node handle datasync caller :=
    onNode node fun r => inner (.fsyncdir r handle.inner datasync caller)
  statfs caller := withRead (inner (.statfs [] caller))
  setxattr node name value flags caller :=
    onPath node fun r => inner (.setxattr r name value flags caller)
  getxattr node name size caller := onPath node fun r => inner (.getxattr r name size caller)
  listxattr node size caller := onPath node fun r => inner (.listxattr r size caller)
  removexattr node name caller := onPath node fun r => inner (.removexattr r name caller)
  access node mask caller := onPath node fun r => inner (.access r mask caller)
  create parent name mode umask flags caller :=
    changeIn parent fun r => inner (.create r name mode umask flags caller) >>=
      fun (made : PathEntry P × Opened P.Handle) =>
        addNode parent name made.1 >>= fun id => .ret (id, made.2)
  fallocate node handle mode offset length caller :=
    onNode node fun r => inner (.fallocate r handle mode offset length caller)
  lseek node handle offset whence caller :=
    onNode node fun r => inner (.lseek r handle offset whence caller)
  getlk node handle owner lock caller :=
    onNode node fun r => inner (.getlk r handle owner lock caller)
  setlk node handle owner lock sleep caller :=
    onNode node fun r => inner (.setlk r handle owner lock sleep caller)
  flock node handle operation caller := onNode node fun r => inner (.flock r handle operation caller)

/-- A runtime on a `PathNodeFs` before its first request. -/
def PathNodeFs.world {B : Type} (root : P.NodeState) (backing : B) :
    World (pathTypes P) (PathState P B) :=
  .new (⟨1, root⟩ : PathNode P) { backing }

/-- The types of a filesystem that keeps nothing in its nodes and handles. -/
abbrev unitPath : PathTypes := ⟨Unit, Unit, Unit⟩

/-- The caller of requests that are played on fixed inputs. -/
def nobody : Caller := ⟨0, 0, 0, 0⟩

end TypedFuse
