import TypedFuse.Runtime.Machine

/-!
# Requests

`NodeFs` and the methods of `Runtime` (`runtime.rs`), each a program over the machine of
`TypedFuse/Runtime/Machine.lean`.  A `NodeRef` or `HandleLease` local to a method is dropped on
every way out of its scope (`withNode`, `withFile`, `withDir`), and `?` is `Prog.exit`.

The sink of a directory read is given as a program that takes an entry and the sink's own state.
`Request` lists the requests as data, with sinks whose answers are arbitrary and which keep the
entries they took.
-/

namespace TypedFuse

open Prog

variable {K : FsTypes} {α σ : Type}

/-- The callbacks of a filesystem, with the defaults of the trait. -/
structure NodeFs (K : FsTypes) where
  forget : K.Node → TotalCallback K Unit := fun _ => .ret ()
  getattr : K.Node → Option K.Handle → Caller → Callback K NodeAttr
  entryAttr : K.Node → Caller → Callback K NodeAttr := fun n caller => getattr n none caller
  setattr : K.Node → Option K.Handle → SetAttr → Caller → Callback K NodeAttr :=
    fun _ _ _ _ => .exit (.errno .ENOSYS)
  wantsFallbackHandle : K.Node → TotalCallback K Bool := fun _ => .ret false
  lookup : NodeId → OsStr → Caller → Callback K (Option NodeId) :=
    fun _ _ _ => .exit (.errno .ENOSYS)
  readlink : K.Node → Caller → Callback K Path := fun _ _ => .exit (.errno .ENOSYS)
  mknod : NodeId → OsStr → (mode rdev umask : Nat) → Caller → Callback K NodeId :=
    fun _ _ _ _ _ _ => .exit (.errno .ENOSYS)
  mkdir : NodeId → OsStr → (mode umask : Nat) → Caller → Callback K NodeId :=
    fun _ _ _ _ _ => .exit (.errno .ENOSYS)
  symlink : NodeId → OsStr → Path → Caller → Callback K NodeId :=
    fun _ _ _ _ => .exit (.errno .ENOSYS)
  unlink : NodeId → OsStr → Caller → Callback K Unit := fun _ _ _ => .exit (.errno .ENOSYS)
  rmdir : NodeId → OsStr → Caller → Callback K Unit := fun _ _ _ => .exit (.errno .ENOSYS)
  rename : NodeId → OsStr → NodeId → OsStr → (flags : Nat) → Caller → Callback K Unit :=
    fun _ _ _ _ _ _ => .exit (.errno .ENOSYS)
  link : NodeId → NodeId → OsStr → Caller → Callback K NodeId :=
    fun _ _ _ _ => .exit (.errno .ENOSYS)
  «open» : K.Node → (flags : Nat) → Caller → Callback K (Opened K.Handle) :=
    fun _ _ _ => .exit (.errno .ENOSYS)
  read : K.Node → K.Handle → (offset size : Nat) → Caller → Callback K (List UInt8) :=
    fun _ _ _ _ _ => .exit (.errno .ENOSYS)
  write : K.Node → K.Handle → List UInt8 → (offset : Nat) → Caller → Callback K Nat :=
    fun _ _ _ _ _ => .exit (.errno .ENOSYS)
  flush : K.Node → K.Handle → Caller → Callback K Unit := fun _ _ _ => .ret ()
  release : K.Node → K.Handle → Caller → Callback K Unit := fun _ _ _ => .ret ()
  fsync : K.Node → K.Handle → (datasync : Bool) → Caller → Callback K Unit :=
    fun _ _ _ _ => .ret ()
  opendir : K.Node → (flags : Nat) → Caller → Callback K (Opened K.DirHandle) :=
    fun _ _ _ => .exit (.errno .ENOSYS)
  readdir : K.Node → (this parent : NodeId) → K.DirHandle → (offset : Nat) → Caller →
    ReadCallback K DirOffer Unit := fun _ _ _ _ _ _ => .exit (.errno .ENOSYS)
  readdirplus : K.Node → (this parent : NodeId) → K.DirHandle → (offset : Nat) → Caller →
    ReadCallback K PlusOffer Unit := fun _ _ _ _ _ _ => .exit (.errno .ENOSYS)
  releasedir : K.Node → K.DirHandle → Caller → Callback K Unit := fun _ _ _ => .ret ()
  fsyncdir : K.Node → K.DirHandle → (datasync : Bool) → Caller → Callback K Unit :=
    fun _ _ _ _ => .ret ()
  statfs : Caller → Callback K StatFs := fun _ => .ret { bsize := 512, namelen := 255 }
  setxattr : K.Node → OsStr → List UInt8 → (flags : Nat) → Caller → Callback K Unit :=
    fun _ _ _ _ _ => .exit (.errno .ENOSYS)
  getxattr : K.Node → OsStr → (size : Nat) → Caller → Callback K XattrReply :=
    fun _ _ _ _ => .exit (.errno .ENOSYS)
  listxattr : K.Node → (size : Nat) → Caller → Callback K XattrReply :=
    fun _ _ _ => .exit (.errno .ENOSYS)
  removexattr : K.Node → OsStr → Caller → Callback K Unit := fun _ _ _ => .exit (.errno .ENOSYS)
  access : K.Node → (mask : Nat) → Caller → Callback K Unit := fun _ _ _ => .ret ()
  create : NodeId → OsStr → (mode umask flags : Nat) → Caller →
    Callback K (NodeId × Opened K.Handle) := fun _ _ _ _ _ _ => .exit (.errno .ENOSYS)
  fallocate : K.Node → K.Handle → (mode offset length : Nat) → Caller → Callback K Unit :=
    fun _ _ _ _ _ _ => .exit (.errno .ENOSYS)
  lseek : K.Node → K.Handle → (offset whence : Nat) → Caller → Callback K Nat :=
    fun _ _ _ _ _ => .exit (.errno .ENOSYS)
  getlk : K.Node → K.Handle → (owner : Nat) → FileLock → Caller → Callback K FileLock :=
    fun _ _ _ _ _ => .exit (.errno .ENOSYS)
  setlk : K.Node → K.Handle → (owner : Nat) → FileLock → (sleep : Bool) → Caller →
    Callback K Unit := fun _ _ _ _ _ _ => .exit (.errno .ENOSYS)
  flock : K.Node → K.Handle → (operation : Nat) → Caller → Callback K Unit :=
    fun _ _ _ _ => .exit (.errno .ENOSYS)
  copyFileRange : NodeId → (offIn : Nat) → NodeId → (offOut len flags : Nat) → Caller →
    Callback K Nat := fun _ _ _ _ _ _ _ => .exit (.errno .ENOSYS)

namespace Runtime

/-! ## Calling the filesystem -/

/-- An operation of a callback is one of the request. -/
def cbOp {ε : Type} : (o : CbOp K Empty) → Prog (rtSig K) ε ((cbSig K Empty).Res o)
  | .cx o => .op (.cx o) .ret
  | .offer e => nomatch e

/-- A callback runs as part of the request. -/
def call {ε : Type} (cb : Prog (cbSig K Empty) ε α) : Prog (rtSig K) ε α := cb.interp cbOp

/-- A callback that cannot fail runs as part of the request. -/
def callTotal (cb : TotalCallback K α) : Action K α :=
  (call cb).mapExit fun _ => .panic

/-- An operation of a directory read, with its sink. -/
def readOp {O : Type} (sink : O → σ → Action K (Option Bool × σ)) :
    (o : CbOp K O) → σ → Action K ((cbSig K O).Res o × σ)
  | .cx o, s => .op (.cx o) fun r => .ret (r, s)
  | .offer e, s => sink e s

/-- A directory read runs with its sink. -/
def callRead {O : Type} (sink : O → σ → Action K (Option Bool × σ)) (cb : ReadCallback K O α)
    (s : σ) : Action K (Except Exit α × σ) := cb.interpState (readOp sink) s

/-! ## Leases -/

def node (ino : Nat) : Action K (NodeRef K.Node) :=
  .op (.get ino) fun
    | none => .exit .panic
    | some none => .exit (.errno .ENOENT)
    | some (some ref) => .ret ref

/-- A scope with a node lease. -/
def withNode (ino : Nat) (body : NodeRef K.Node → Action K α) : Action K α :=
  node ino >>= fun ref => (body ref).andFinally (.op (.dropRef ref) .ret)

/-- The lookup of a handle that `file` and `dir` share. -/
def handleLease {P : Type} (sections : (o : HandleOp) → Action K (o.Res P)) (ino fh : Nat) :
    Action K P :=
  sections (.find fh) >>= fun
    | none => .exit (.errno .EBADF)
    | some node =>
      if node ≠ ino then .exit (.errno .EBADF)
      else sections (.acquire fh) >>= fun
        | none => .exit .panic
        | some none => .exit (.errno .EBADF)
        | some (some payload) => .ret payload

def files (o : HandleOp) : Action K (o.Res K.Handle) := .op (.file o) .ret

def dirs (o : HandleOp) : Action K (o.Res K.DirHandle) := .op (.dir o) .ret

def file (ino fh : Nat) : Action K K.Handle := handleLease files ino fh

def dir (ino fh : Nat) : Action K K.DirHandle := handleLease dirs ino fh

/-- A scope with a lease on a file handle. -/
def withFile (ino fh : Nat) (body : K.Handle → Action K α) : Action K α :=
  file ino fh >>= fun h => (body h).andFinally (.op (.file (.unlease fh)) .ret)

/-- A scope with a lease on a directory handle. -/
def withDir (ino fh : Nat) (body : K.DirHandle → Action K α) : Action K α :=
  dir ino fh >>= fun h => (body h).andFinally (.op (.dir (.unlease fh)) .ret)

/-- The handle `getattr` or `setattr` should pass, with its number. -/
def optionalFile (fs : NodeFs K) (ino : Nat) (n : K.Node) :
    Option Nat → Action K (Option (Nat × K.Handle))
  | some fh => file ino fh >>= fun h => .ret (some (fh, h))
  | none =>
    .op (.hasOpens ino) fun (opened : Bool) =>
      if opened then
        callTotal (fs.wantsFallbackHandle n) >>= fun wants =>
          if wants then
            .op (.file (.scan ino)) fun
              | none => .exit .panic
              | some lease => .ret lease
          else .ret none
      else .ret none

/-- A scope with the handle of `optionalFile`. -/
def withOptionalFile (fs : NodeFs K) (ino : Nat) (n : K.Node) (fh : Option Nat)
    (body : Option K.Handle → Action K α) : Action K α :=
  optionalFile fs ino n fh >>= fun
    | none => body none
    | some (fh, h) => (body (some h)).andFinally (.op (.file (.unlease fh)) .ret)

/-! ## Lookup counts -/

def entryFor (fs : NodeFs K) (id : NodeId) (caller : Caller) : Action K EntryReply :=
  withNode id fun n =>
    call (fs.entryAttr n.record.payload caller) >>= fun attr =>
      .op (.retainLookup id) fun
        | none => .exit .panic
        | some none => .exit (.errno .ENOENT)
        | some (some generation) => .ret ⟨id, generation, attr⟩

def forget (fs : NodeFs K) (ino nlookup : Nat) : Action K Unit :=
  .op (.beginForget ino nlookup) fun
    | none => .exit .panic
    | some none => .ret ()
    | some (some (some ref)) =>
      (callTotal (fs.forget ref.record.payload)).andFinally (.op (.dropRef ref) .ret)
    | some (some none) => .op (.maybeDrop ino) .ret

/-- `for id in ids { self.forget(id.ino(), 1) }`. -/
def forgetEach (fs : NodeFs K) : List NodeId → Action K Unit
  | [] => .ret ()
  | id :: rest => forget fs id 1 >>= fun _ => forgetEach fs rest

/-! ## Open handles -/

def addOpen (ino : Nat) : Action K Unit :=
  .op (.addOpen ino) fun
    | none => .exit .panic
    | some false => .exit (.errno .ENOENT)
    | some true => .ret ()

/-- The end of `open`: the open count, then the record. -/
def bindFile (ino : Nat) (opened : Opened K.Handle) : Action K OpenReply :=
  addOpen ino >>= fun _ => .op (.addFile ino opened.handle) fun
    | none => .exit .panic
    | some fh => .ret ⟨fh, opened.hints⟩

def bindDir (ino : Nat) (opened : Opened K.DirHandle) : Action K OpenReply :=
  addOpen ino >>= fun _ => .op (.addDir ino opened.handle) fun
    | none => .exit .panic
    | some fh => .ret ⟨fh, opened.hints⟩

/-- What `release` and `releasedir` share. -/
def releaseHandle {P : Type} (sections : (o : HandleOp) → Action K (o.Res P)) (ino fh : Nat)
    (callback : K.Node → P → Callback K Unit) : Action K Unit :=
  sections (.remove ino fh) >>= fun (removed : Bool) =>
    if removed then
      withNode ino fun n => .op (.removeOpen ino) fun _ =>
        sections (.close fh) >>= fun _ => sections (.take fh) >>= fun payload =>
          call (callback n.record.payload payload)
    else .exit (.errno .EBADF)

/-! ## The methods -/

section Methods

variable (fs : NodeFs K) (ino fh : Nat) (caller : Caller)

def statfs : Action K StatFs := call (fs.statfs caller)

def getattr (fh : Option Nat) : Action K NodeAttr :=
  withNode ino fun n => withOptionalFile fs ino n.record.payload fh fun h =>
    call (fs.getattr n.record.payload h caller)

def setattr (fh : Option Nat) (set : SetAttr) : Action K NodeAttr :=
  withNode ino fun n => withOptionalFile fs ino n.record.payload fh fun h =>
    call (fs.setattr n.record.payload h set caller)

def readlink : Action K Path :=
  withNode ino fun n => call (fs.readlink n.record.payload caller)

def access (mask : Nat) : Action K Unit :=
  withNode ino fun n => call (fs.access n.record.payload mask caller)

def setxattr (name : OsStr) (value : List UInt8) (flags : Nat) : Action K Unit :=
  withNode ino fun n => call (fs.setxattr n.record.payload name value flags caller)

def getxattr (name : OsStr) (size : Nat) : Action K XattrReply :=
  withNode ino fun n => call (fs.getxattr n.record.payload name size caller)

def listxattr (size : Nat) : Action K XattrReply :=
  withNode ino fun n => call (fs.listxattr n.record.payload size caller)

def removexattr (name : OsStr) : Action K Unit :=
  withNode ino fun n => call (fs.removexattr n.record.payload name caller)

def «open» (flags : Nat) : Action K OpenReply :=
  withNode ino fun n => call (fs.open n.record.payload flags caller) >>= bindFile ino

/-- The request on a leased file handle that `read` to `flock` are. -/
def onFile (callback : K.Node → K.Handle → Callback K α) : Action K α :=
  withNode ino fun n => withFile ino fh fun h => call (callback n.record.payload h)

def read (offset size : Nat) : Action K (List UInt8) :=
  onFile ino fh fun n h => fs.read n h offset size caller

def write (data : List UInt8) (offset : Nat) : Action K Nat :=
  onFile ino fh fun n h => fs.write n h data offset caller

def flush : Action K Unit := onFile ino fh fun n h => fs.flush n h caller

def fsync (datasync : Bool) : Action K Unit :=
  onFile ino fh fun n h => fs.fsync n h datasync caller

def fallocate (mode offset length : Nat) : Action K Unit :=
  onFile ino fh fun n h => fs.fallocate n h mode offset length caller

def lseek (offset whence : Nat) : Action K Nat :=
  onFile ino fh fun n h => fs.lseek n h offset whence caller

def getlk (owner : Nat) (requested : FileLock) : Action K FileLock :=
  onFile ino fh fun n h => fs.getlk n h owner requested caller

def setlk (owner : Nat) (lock : FileLock) (sleep : Bool) : Action K Unit :=
  onFile ino fh fun n h => fs.setlk n h owner lock sleep caller

def flock (operation : Nat) : Action K Unit :=
  onFile ino fh fun n h => fs.flock n h operation caller

def release : Action K Unit :=
  releaseHandle files ino fh fun n h => fs.release n h caller

def opendir (flags : Nat) : Action K OpenReply :=
  withNode ino fun n => call (fs.opendir n.record.payload flags caller) >>= bindDir ino

/-- The scope of a directory read: the node, its parent and the handle. -/
def onDir (body : K.Node → NodeId → K.DirHandle → Action K α) : Action K α :=
  withNode ino fun n => .op (.parentOf ino) fun
    | none => .exit (.errno .ENOENT)
    | some parent => withDir ino fh fun h => body n.record.payload parent h

def readdir (sink : DirOffer → σ → Action K (Option Bool × σ)) (s : σ) (offset : Nat) :
    Action K σ :=
  onDir ino fh fun n parent h =>
    callRead sink (fs.readdir n ino parent h offset caller) s >>= fun
      | (.ok _, s) => .ret s
      | (.error e, _) => .exit e

/-- The sink `readdirplus` wraps around its caller's. -/
structure Accounting (σ : Type) where
  inner : σ
  accepted : List NodeId := []

def Accounting.add (inner : PlusEntry → σ → Action K (Option Bool × σ)) (offer : PlusOffer)
    (s : Accounting σ) : Action K (Option Bool × Accounting σ) :=
  .op (.generationOf offer.id) fun
    | none => .ret (some false, s)
    | some generation =>
      inner ⟨offer.name, ⟨offer.id, generation, offer.attr⟩, offer.nextOffset⟩ s.inner >>= fun
        | (some true, inner) =>
          if offer.name ≠ OsStr.dot ∧ offer.name ≠ OsStr.dotDot then
            .op (.retainLookup offer.id) fun
              | none => .ret (none, { s with inner })
              | some none => .ret (some true, { s with inner })
              | some (some _) => .ret (some true, ⟨inner, s.accepted ++ [offer.id]⟩)
          else .ret (some true, { s with inner })
        | (taken, inner) => .ret (taken, { s with inner })

def readdirplus (sink : PlusEntry → σ → Action K (Option Bool × σ)) (s : σ) (offset : Nat) :
    Action K (List NodeId × σ) :=
  onDir ino fh fun n parent h =>
    callRead (Accounting.add sink) (fs.readdirplus n ino parent h offset caller) ⟨s, []⟩ >>= fun
      | (.ok _, s) => .ret (s.accepted, s.inner)
      | (.error (.errno e), s) => forgetEach fs s.accepted >>= fun _ => .exit (.errno e)
      | (.error .panic, _) => .exit .panic

def fsyncdir (datasync : Bool) : Action K Unit :=
  withNode ino fun n => withDir ino fh fun h =>
    call (fs.fsyncdir n.record.payload h datasync caller)

def releasedir : Action K Unit :=
  releaseHandle dirs ino fh fun n h => fs.releasedir n h caller

variable (parent : Nat) (name : OsStr)

def lookup : Action K LookupReply :=
  call (fs.lookup parent name caller) >>= fun
    | some id => entryFor fs id caller >>= fun entry => .ret (.found entry)
    | none => .ret .negative

def mknod (mode rdev umask : Nat) : Action K EntryReply :=
  call (fs.mknod parent name mode rdev umask caller) >>= fun id => entryFor fs id caller

def mkdir (mode umask : Nat) : Action K EntryReply :=
  call (fs.mkdir parent name mode umask caller) >>= fun id => entryFor fs id caller

def symlink (target : Path) : Action K EntryReply :=
  call (fs.symlink parent name target caller) >>= fun id => entryFor fs id caller

def link (newparent : Nat) (newname : OsStr) : Action K EntryReply :=
  call (fs.link ino newparent newname caller) >>= fun id => entryFor fs id caller

def unlink : Action K Unit := call (fs.unlink parent name caller)

def rmdir : Action K Unit := call (fs.rmdir parent name caller)

def rename (newparent : Nat) (newname : OsStr) (flags : Nat) : Action K Unit :=
  call (fs.rename parent name newparent newname flags caller)

def create (mode umask flags : Nat) : Action K (EntryReply × OpenReply) :=
  call (fs.create parent name mode umask flags caller) >>= fun (id, opened) =>
    entryFor fs id caller >>= fun entry => bindFile id opened >>= fun reply => .ret (entry, reply)

def copyFileRange (offIn inoOut offOut len flags : Nat) : Action K Nat :=
  call (fs.copyFileRange ino offIn inoOut offOut len flags caller)

end Methods

end Runtime

/-! ## Requests as data -/

inductive Request
  | forget (ino nlookup : Nat)
  | statfs (caller : Caller)
  | getattr (ino : Nat) (fh : Option Nat) (caller : Caller)
  | setattr (ino : Nat) (fh : Option Nat) (set : SetAttr) (caller : Caller)
  | readlink (ino : Nat) (caller : Caller)
  | access (ino mask : Nat) (caller : Caller)
  | setxattr (ino : Nat) (name : OsStr) (value : List UInt8) (flags : Nat) (caller : Caller)
  | getxattr (ino : Nat) (name : OsStr) (size : Nat) (caller : Caller)
  | listxattr (ino size : Nat) (caller : Caller)
  | removexattr (ino : Nat) (name : OsStr) (caller : Caller)
  | «open» (ino flags : Nat) (caller : Caller)
  | read (ino fh offset size : Nat) (caller : Caller)
  | write (ino fh : Nat) (data : List UInt8) (offset : Nat) (caller : Caller)
  | flush (ino fh : Nat) (caller : Caller)
  | fsync (ino fh : Nat) (datasync : Bool) (caller : Caller)
  | fallocate (ino fh mode offset length : Nat) (caller : Caller)
  | lseek (ino fh offset whence : Nat) (caller : Caller)
  | getlk (ino fh owner : Nat) (requested : FileLock) (caller : Caller)
  | setlk (ino fh owner : Nat) (lock : FileLock) (sleep : Bool) (caller : Caller)
  | flock (ino fh operation : Nat) (caller : Caller)
  | release (ino fh : Nat) (caller : Caller)
  | opendir (ino flags : Nat) (caller : Caller)
  | readdir (ino fh offset : Nat) (caller : Caller)
  | readdirplus (ino fh offset : Nat) (caller : Caller)
  | fsyncdir (ino fh : Nat) (datasync : Bool) (caller : Caller)
  | releasedir (ino fh : Nat) (caller : Caller)
  | lookup (parent : Nat) (name : OsStr) (caller : Caller)
  | mknod (parent : Nat) (name : OsStr) (mode rdev umask : Nat) (caller : Caller)
  | mkdir (parent : Nat) (name : OsStr) (mode umask : Nat) (caller : Caller)
  | symlink (parent : Nat) (name : OsStr) (target : Path) (caller : Caller)
  | link (ino newparent : Nat) (newname : OsStr) (caller : Caller)
  | unlink (parent : Nat) (name : OsStr) (caller : Caller)
  | rmdir (parent : Nat) (name : OsStr) (caller : Caller)
  | rename (parent : Nat) (name : OsStr) (newparent : Nat) (newname : OsStr) (flags : Nat)
      (caller : Caller)
  | create (parent : Nat) (name : OsStr) (mode umask flags : Nat) (caller : Caller)
  | copyFileRange (ino offIn inoOut offOut len flags : Nat) (caller : Caller)

inductive Reply
  | unit
  | statfs (stats : StatFs)
  | attr (attr : NodeAttr)
  | path (target : Path)
  | data (bytes : List UInt8)
  | count (n : Nat)
  | xattr (reply : XattrReply)
  | lock (lock : FileLock)
  | lookup (reply : LookupReply)
  | entry (entry : EntryReply)
  | opened (reply : OpenReply)
  | created (entry : EntryReply) (reply : OpenReply)
  | page (entries : List DirOffer)
  | plusPage (retained : List NodeId) (entries : List PlusEntry)

/-- A sink that answers as it likes and keeps what it takes. -/
def pageSink (ino : Nat) (e : DirOffer) (page : List DirOffer) :
    Action K (Option Bool × List DirOffer) :=
  .op (.offerDir ino e) fun (took : Bool) => .ret (some took, if took then page ++ [e] else page)

def plusPageSink (ino : Nat) (e : PlusEntry) (page : List PlusEntry) :
    Action K (Option Bool × List PlusEntry) :=
  .op (.offerPlus ino e) fun (took : Bool) => .ret (some took, if took then page ++ [e] else page)

def Request.run (fs : NodeFs K) : Request → Action K Reply
  | .forget ino nlookup => Runtime.forget fs ino nlookup >>= fun _ => .ret .unit
  | .statfs caller => Runtime.statfs fs caller >>= fun s => .ret (.statfs s)
  | .getattr ino fh caller => Runtime.getattr fs ino caller fh >>= fun a => .ret (.attr a)
  | .setattr ino fh set caller => Runtime.setattr fs ino caller fh set >>= fun a => .ret (.attr a)
  | .readlink ino caller => Runtime.readlink fs ino caller >>= fun p => .ret (.path p)
  | .access ino mask caller => Runtime.access fs ino caller mask >>= fun _ => .ret .unit
  | .setxattr ino name value flags caller =>
    Runtime.setxattr fs ino caller name value flags >>= fun _ => .ret .unit
  | .getxattr ino name size caller =>
    Runtime.getxattr fs ino caller name size >>= fun x => .ret (.xattr x)
  | .listxattr ino size caller => Runtime.listxattr fs ino caller size >>= fun x => .ret (.xattr x)
  | .removexattr ino name caller =>
    Runtime.removexattr fs ino caller name >>= fun _ => .ret .unit
  | .open ino flags caller => Runtime.open fs ino caller flags >>= fun r => .ret (.opened r)
  | .read ino fh offset size caller =>
    Runtime.read fs ino fh caller offset size >>= fun d => .ret (.data d)
  | .write ino fh data offset caller =>
    Runtime.write fs ino fh caller data offset >>= fun n => .ret (.count n)
  | .flush ino fh caller => Runtime.flush fs ino fh caller >>= fun _ => .ret .unit
  | .fsync ino fh datasync caller =>
    Runtime.fsync fs ino fh caller datasync >>= fun _ => .ret .unit
  | .fallocate ino fh mode offset length caller =>
    Runtime.fallocate fs ino fh caller mode offset length >>= fun _ => .ret .unit
  | .lseek ino fh offset whence caller =>
    Runtime.lseek fs ino fh caller offset whence >>= fun n => .ret (.count n)
  | .getlk ino fh owner requested caller =>
    Runtime.getlk fs ino fh caller owner requested >>= fun l => .ret (.lock l)
  | .setlk ino fh owner lock sleep caller =>
    Runtime.setlk fs ino fh caller owner lock sleep >>= fun _ => .ret .unit
  | .flock ino fh operation caller =>
    Runtime.flock fs ino fh caller operation >>= fun _ => .ret .unit
  | .release ino fh caller => Runtime.release fs ino fh caller >>= fun _ => .ret .unit
  | .opendir ino flags caller => Runtime.opendir fs ino caller flags >>= fun r => .ret (.opened r)
  | .readdir ino fh offset caller =>
    Runtime.readdir fs ino fh caller (pageSink ino) [] offset >>= fun page =>
      .ret (.page page)
  | .readdirplus ino fh offset caller =>
    Runtime.readdirplus fs ino fh caller (plusPageSink ino) [] offset >>= fun
      (retained, page) => .ret (.plusPage retained page)
  | .fsyncdir ino fh datasync caller =>
    Runtime.fsyncdir fs ino fh caller datasync >>= fun _ => .ret .unit
  | .releasedir ino fh caller => Runtime.releasedir fs ino fh caller >>= fun _ => .ret .unit
  | .lookup parent name caller =>
    Runtime.lookup fs caller parent name >>= fun r => .ret (.lookup r)
  | .mknod parent name mode rdev umask caller =>
    Runtime.mknod fs caller parent name mode rdev umask >>= fun e => .ret (.entry e)
  | .mkdir parent name mode umask caller =>
    Runtime.mkdir fs caller parent name mode umask >>= fun e => .ret (.entry e)
  | .symlink parent name target caller =>
    Runtime.symlink fs caller parent name target >>= fun e => .ret (.entry e)
  | .link ino newparent newname caller =>
    Runtime.link fs ino caller newparent newname >>= fun e => .ret (.entry e)
  | .unlink parent name caller => Runtime.unlink fs caller parent name >>= fun _ => .ret .unit
  | .rmdir parent name caller => Runtime.rmdir fs caller parent name >>= fun _ => .ret .unit
  | .rename parent name newparent newname flags caller =>
    Runtime.rename fs caller parent name newparent newname flags >>= fun _ => .ret .unit
  | .create parent name mode umask flags caller =>
    Runtime.create fs caller parent name mode umask flags >>= fun (e, r) => .ret (.created e r)
  | .copyFileRange ino offIn inoOut offOut len flags caller =>
    Runtime.copyFileRange fs ino caller offIn inoOut offOut len flags >>= fun n => .ret (.count n)

end TypedFuse
