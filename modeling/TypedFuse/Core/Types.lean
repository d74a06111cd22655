import Mathlib.Algebra.Group.Int.Defs
import Mathlib.Algebra.Group.Nat.Defs
import TypedFuse.Lib.Prog

/-!
# Value types of the core crate

The types the runtime, the filesystem and the path adapter exchange (`attr.rs`, `errno.rs` and
`node_fs.rs`).  Names are raw bytes, as on Unix.  Fields that no modelled function reads (times,
owners, permission bits, `statfs` counters) are left out.
-/

namespace TypedFuse

/-- `NodeId`: numerically equal to the inode number. -/
abbrev NodeId := Nat

/-- `NodeId::ROOT`. -/
def NodeId.root : NodeId := 1

/-- `OsStr`: the bytes of a name. -/
abbrev OsStr := List UInt8

/-- The name `.`. -/
def OsStr.dot : OsStr := [46]

/-- The name `..`. -/
def OsStr.dotDot : OsStr := [46, 46]

/-- `Path` and `PathBuf`: the names below the root (or the bytes of a symlink's target). -/
abbrev Path := List OsStr

structure Errno where
  raw : Int
deriving DecidableEq, Repr

namespace Errno

def EPERM : Errno := ⟨1⟩
def ENOENT : Errno := ⟨2⟩
def EIO : Errno := ⟨5⟩
def EBADF : Errno := ⟨9⟩
def EACCES : Errno := ⟨13⟩
def EEXIST : Errno := ⟨17⟩
def ENOTDIR : Errno := ⟨20⟩
def EISDIR : Errno := ⟨21⟩
def EINVAL : Errno := ⟨22⟩
def ERANGE : Errno := ⟨34⟩
def ENOSYS : Errno := ⟨38⟩
def ENOTEMPTY : Errno := ⟨39⟩
def ENODATA : Errno := ⟨61⟩
def EOVERFLOW : Errno := ⟨75⟩
def EOPNOTSUPP : Errno := ⟨95⟩

end Errno

/-- How a Rust function is left other than by its value: `Err`, or unwinding from a panic. -/
inductive Exit
  | errno (e : Errno)
  | panic
deriving DecidableEq, Repr

inductive FileKind
  | regularFile
  | directory
  | symlink
  | charDevice
  | blockDevice
  | namedPipe
  | socket
deriving DecidableEq, Repr

structure NodeAttr where
  kind : FileKind
  size : Nat
  nlink : Nat
deriving DecidableEq, Repr

structure SetAttr where
  mode : Option Nat
  size : Option Nat
deriving DecidableEq, Repr

structure StatFs where
  blocks : Nat := 0
  bfree : Nat := 0
  bavail : Nat := 0
  files : Nat := 0
  ffree : Nat := 0
  bsize : Nat := 0
  namelen : Nat := 0
  frsize : Nat := 0
deriving DecidableEq, Repr

inductive XattrReply
  | size (n : Nat)
  | data (bytes : List UInt8)
deriving DecidableEq, Repr

inductive LockKind
  | read
  | write
  | unlock
deriving DecidableEq, Repr

/-- A record lock on the bytes from `start` to `stop` inclusive. -/
structure FileLock where
  kind : LockKind
  start : Nat
  stop : Nat
  pid : Nat
deriving DecidableEq, Repr

structure Caller where
  uid : Nat
  gid : Nat
  pid : Nat
  umask : Nat
deriving DecidableEq, Repr

structure OpenHints where
  directIo : Bool := false
  keepCache : Bool := false
  nonseekable : Bool := false
  cacheReaddir : Bool := false
  parallelDirectWrites : Bool := false
deriving DecidableEq, Repr

/-- The filesystem's handle and its hints. -/
structure Opened (H : Type) where
  handle : H
  hints : OpenHints := {}

/-- A directory entry for the kernel to cache. -/
structure EntryReply where
  ino : NodeId
  generation : Nat
  attr : NodeAttr
deriving DecidableEq, Repr

inductive LookupReply
  | found (entry : EntryReply)
  | negative
deriving DecidableEq, Repr

structure OpenReply where
  fh : Nat
  hints : OpenHints
deriving DecidableEq, Repr

/-- `checked_add(1)` on an unsigned integer of `bits` bits; `none` is the overflow that the
callers turn into a panic. -/
def checkedAdd (bits n : Nat) : Option Nat :=
  if n + 1 < 2 ^ bits then some (n + 1) else none

theorem checkedAdd_eq_some {bits n m : Nat} (h : checkedAdd bits n = some m) : m = n + 1 := by
  unfold checkedAdd at h
  split at h
  · exact (Option.some.inj h).symm
  · cases h

/-! ## Leaving early -/

/-- `Option::ok_or`, with an errno. -/
def okOr {α : Type} (x : Option α) (e : Errno) : Except Exit α := x.elim (.error (.errno e)) .ok

/-- The value of a plain operator, which panics where there is none. -/
def orPanic {α : Type} (x : Option α) : Except Exit α := x.elim (.error .panic) .ok

theorem okOr_eq_ok {α : Type} {x : Option α} {e : Errno} {a : α} :
    okOr x e = .ok a ↔ x = some a := by
  cases x <;> simp [okOr]

theorem orPanic_eq_ok {α : Type} {x : Option α} {a : α} : orPanic x = .ok a ↔ x = some a := by
  cases x <;> simp [orPanic]

theorem ok_bind {α β : Type} (a : α) (f : α → Except Exit β) :
    ((Except.ok a : Except Exit α) >>= f) = f a := rfl

theorem okOr_ne_panic {α : Type} {x : Option α} {e : Errno} : okOr x e ≠ .error .panic := by
  cases x <;> simp [okOr]

theorem bind_ne_panic {α β : Type} {x : Except Exit α} {f : α → Except Exit β}
    (first : x ≠ .error .panic) (rest : ∀ a, x = .ok a → f a ≠ .error .panic) :
    (x >>= f) ≠ .error .panic := by
  cases x with
  | ok a => exact rest a rfl
  | error e =>
      intro eq
      cases eq
      exact first rfl

theorem bind_eq_ok {α β : Type} {x : Except Exit α} {f : α → Except Exit β} {b : β} :
    (x >>= f) = .ok b ↔ ∃ a, x = .ok a ∧ f a = .ok b := by
  cases x with
  | ok a =>
      constructor
      · exact fun h => ⟨a, rfl, h⟩
      · rintro ⟨_, eq, h⟩
        cases eq
        exact h
  | error e =>
      constructor
      · nofun
      · rintro ⟨_, eq, -⟩
        cases eq

end TypedFuse
