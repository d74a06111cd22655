import TypedFuse.Runtime.Accounting

/-!
# The session's shims

The trampolines of `session.rs` that libfuse calls, and the reply buffer of `ffi.rs`.  A shim runs
its request under `catch_unwind`, so a panic becomes `EIO`, and then makes one reply call.  libfuse
reports whether a reply was delivered; `delivered` is that report, for each reply the shim could
make.
-/

namespace TypedFuse

open Prog

variable {K : FsTypes} {α : Type}

/-- What a reply call says. -/
inductive Sent
  | err (e : Errno)
  | none
  | entry (e : EntryReply)
  | negative
  | created (e : EntryReply) (reply : OpenReply)
  | dirBuf (entries : List DirOffer)
  | plusBuf (entries : List PlusEntry)
  | other (reply : Reply)

namespace Session

/-! ## The reply buffer -/

/-- `RawDirentBuf`: the records written so far, in a buffer of `capacity` bytes. -/
structure RawDirentBuf (E : Type) where
  capacity : Nat
  used : Nat := 0
  entries : List E := []

/-- `fuse_add_direntry` and `fuse_add_direntry_plus`, asked for the size of a record. -/
structure RecordSizes where
  direntry : OsStr → Nat
  direntryPlus : OsStr → Nat

/-- `add`: a name with a NUL byte is skipped, and a record that does not fit is refused. -/
def RawDirentBuf.add {E : Type} (size : OsStr → Nat) (name : OsStr) (e : E) (b : RawDirentBuf E) :
    Bool × RawDirentBuf E :=
  if 0 ∈ name then (true, b)
  else if b.used + size name > b.capacity then (false, b)
  else (true, { b with used := b.used + size name, entries := b.entries ++ [e] })

def dirSink (lib : RecordSizes) (e : DirOffer) (b : RawDirentBuf DirOffer) :
    Action K (Option Bool × RawDirentBuf DirOffer) :=
  let (took, b) := b.add lib.direntry e.name e
  .ret (some took, b)

def plusSink (lib : RecordSizes) (e : PlusEntry) (b : RawDirentBuf PlusEntry) :
    Action K (Option Bool × RawDirentBuf PlusEntry) :=
  let (took, b) := b.add lib.direntryPlus e.name e
  .ret (some took, b)

/-! ## Calling the runtime -/

open TypedFuse.Errno in
/-- `call_fs`: a panic is an `EIO`. -/
def callFs (p : Action K α) : Action K (Except Errno α) :=
  p.attempt >>= fun
    | .ok a => .ret (.ok a)
    | .error (.errno e) => .ret (.error e)
    | .error .panic => .ret (.error EIO)

/-- The shims that reply whatever their request returns. -/
def shim (p : Action K α) (reply : α → Sent) : Action K Sent :=
  callFs p >>= fun
    | .ok a => .ret (reply a)
    | .error e => .ret (.err e)

/-- `catch_unwind_unit` around a request that has no reply. -/
def silent (p : Action K Unit) : Action K Sent := p.attempt >>= fun _ => .ret .none

/-! ## The shims -/

section Shims

variable (lib : RecordSizes) (fs : NodeFs K) (delivered : Sent → Bool) (caller : Caller)

def lookupShim (parent : Nat) (name : OsStr) : Action K Sent :=
  shim (Runtime.lookup fs caller parent name) fun
    | .found e => .entry e
    | .negative => .negative

def forgetShim (ino nlookup : Nat) : Action K Sent := silent (Runtime.forget fs ino nlookup)

/-- `for entry in entries { rt.forget(entry.ino, entry.nlookup) }`. -/
def forgetAll : List (Nat × Nat) → Action K Unit
  | [] => .ret ()
  | (ino, nlookup) :: rest => Runtime.forget fs ino nlookup >>= fun _ => forgetAll rest

def forgetMultiShim (entries : List (Nat × Nat)) : Action K Sent := silent (forgetAll fs entries)

def mknodShim (parent : Nat) (name : OsStr) (mode rdev : Nat) : Action K Sent :=
  shim (Runtime.mknod fs caller parent name mode rdev caller.umask) .entry

def mkdirShim (parent : Nat) (name : OsStr) (mode : Nat) : Action K Sent :=
  shim (Runtime.mkdir fs caller parent name mode caller.umask) .entry

def symlinkShim (link : Path) (parent : Nat) (name : OsStr) : Action K Sent :=
  shim (Runtime.symlink fs caller parent name link) .entry

def linkShim (ino newparent : Nat) (newname : OsStr) : Action K Sent :=
  shim (Runtime.link fs ino caller newparent newname) .entry

def createShim (parent : Nat) (name : OsStr) (mode flags : Nat) : Action K Sent :=
  shim (Runtime.create fs caller parent name mode caller.umask flags) fun (e, reply) =>
    .created e reply

def readdirShim (ino fh size : Nat) (off : Int) : Action K Sent :=
  if off < 0 then .ret (.err .EINVAL)
  else shim (Runtime.readdir fs ino fh caller (dirSink lib) ⟨size, 0, []⟩ off.toNat) fun buf =>
    .dirBuf buf.entries

/-- The one shim that looks at what became of its reply. -/
def readdirplusShim (ino fh size : Nat) (off : Int) : Action K Sent :=
  if off < 0 then .ret (.err .EINVAL)
  else
    callFs (Runtime.readdirplus fs ino fh caller (plusSink lib) ⟨size, 0, []⟩ off.toNat) >>= fun
      | .ok (retained, buf) =>
        if delivered (.plusBuf buf.entries) then .ret (.plusBuf buf.entries)
        else Runtime.forgetEach fs retained >>= fun _ => .ret (.plusBuf buf.entries)
      | .error e => .ret (.err e)

end Shims

end Session

/-! ## Requests of a session -/

/-- The requests whose replies carry no entry and whose shims have no loop of their own. -/
def Request.entryless : Request → Bool
  | .forget _ _ => false
  | .readdir _ _ _ _ => false
  | .readdirplus _ _ _ _ => false
  | .lookup _ _ _ => false
  | .mknod _ _ _ _ _ _ => false
  | .mkdir _ _ _ _ _ => false
  | .symlink _ _ _ _ => false
  | .link _ _ _ _ => false
  | .create _ _ _ _ _ _ => false
  | _ => true

inductive SessionRequest
  | lookup (parent : Nat) (name : OsStr) (caller : Caller)
  | forget (ino nlookup : Nat)
  | forgetMulti (entries : List (Nat × Nat))
  | mknod (parent : Nat) (name : OsStr) (mode rdev : Nat) (caller : Caller)
  | mkdir (parent : Nat) (name : OsStr) (mode : Nat) (caller : Caller)
  | symlink (target : Path) (parent : Nat) (name : OsStr) (caller : Caller)
  | link (ino newparent : Nat) (newname : OsStr) (caller : Caller)
  | create (parent : Nat) (name : OsStr) (mode flags : Nat) (caller : Caller)
  | readdir (ino fh size : Nat) (off : Int) (caller : Caller)
  | readdirplus (ino fh size : Nat) (off : Int) (caller : Caller)
  | other (q : Request) (entryless : q.entryless = true)

open TypedFuse.Session in
def SessionRequest.run (lib : RecordSizes) (fs : NodeFs K) (delivered : Sent → Bool) :
    SessionRequest → Action K Sent
  | .lookup parent name caller => lookupShim fs caller parent name
  | .forget ino nlookup => forgetShim fs ino nlookup
  | .forgetMulti entries => forgetMultiShim fs entries
  | .mknod parent name mode rdev caller => mknodShim fs caller parent name mode rdev
  | .mkdir parent name mode caller => mkdirShim fs caller parent name mode
  | .symlink target parent name caller => symlinkShim fs caller target parent name
  | .link ino newparent newname caller => linkShim fs caller ino newparent newname
  | .create parent name mode flags caller => createShim fs caller parent name mode flags
  | .readdir ino fh size off caller => readdirShim lib fs caller ino fh size off
  | .readdirplus ino fh size off caller =>
    readdirplusShim lib fs delivered caller ino fh size off
  | .other q _ => shim (q.run fs) .other

end TypedFuse
