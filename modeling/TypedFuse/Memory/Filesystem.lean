import TypedFuse.Runtime.Requests

/-!
# The in-memory filesystem

`MemoryFs` (`memory_fs.rs`) as a filesystem of the runtime.  A `Node` is a lock around its data, so
its payload in the node table is the number of a cell, and every use of the lock is one operation on
the cell.  A panic in a section poisons the lock; as every use unwraps the guard, the data of a
poisoned lock is never seen again, and the cell is taken away.

Owners, device numbers and times are left out, as in `NodeAttr` and `SetAttr`.
-/

namespace TypedFuse

open Std Prog

namespace MemoryFs

structure DirEntry where
  id : NodeId
  kind : FileKind
deriving DecidableEq, Repr

inductive Content
  | dir (entries : ExtTreeMap OsStr DirEntry)
  | file (bytes : List UInt8)
  | symlink (target : Path)
  /-- FIFO, socket or device node. -/
  | special

structure NodeData where
  kind : FileKind
  content : Content
  perm : Nat
  nlink : Nat
  xattrs : ExtTreeMap OsStr (List UInt8)

namespace NodeData

/-- `Node::new`. -/
def new (kind : FileKind) (content : Content) (perm : Nat) : NodeData where
  kind
  content
  perm
  nlink := if kind = .directory then 2 else 1
  xattrs := ∅

/-- The length of a target's bytes: its names and what separates them. -/
def targetLength (target : Path) : Nat :=
  target.foldr (fun name n => name.length + n) (target.length - 1)

def size (d : NodeData) : Nat :=
  match d.content with
  | .file bytes => bytes.length
  | .symlink target => targetLength target
  | .dir entries => entries.size
  | .special => 0

def attr (d : NodeData) : NodeAttr := ⟨d.kind, d.size, d.nlink⟩

/-- `nlink += 1`. -/
def addNlink (d : NodeData) : Option NodeData :=
  (checkedAdd 32 d.nlink).map fun nlink => { d with nlink }

/-- `nlink = nlink.saturating_sub(1)`. -/
def subNlink (d : NodeData) : NodeData := { d with nlink := d.nlink - 1 }

/-- `if let Content::Dir(entries) = &mut node.content` around an update of the entries. -/
def onEntries (f : ExtTreeMap OsStr DirEntry → ExtTreeMap OsStr DirEntry) (d : NodeData) :
    NodeData :=
  match d.content with
  | .dir entries => { d with content := .dir (f entries) }
  | _ => d

end NodeData

/-! ## Operations on the cells -/

/-- An operation of the filesystem's own: `Node::new`, and the sections of the lock of a node. -/
inductive MemOp
  | new (data : NodeData)
  | read (cell : Nat)
  | write (cell : Nat) (f : NodeData → Option NodeData)

/-- A section answers with the data, or with the data before and after; `none` is a panic. -/
def MemOp.Res : MemOp → Type
  | .new _ => Nat
  | .read _ => Option NodeData
  | .write _ _ => Option (NodeData × NodeData)

structure Cells where
  next : Nat := 0
  data : ExtTreeMap Nat NodeData := ∅

def Cells.exec : (o : MemOp) → Cells → o.Res × Cells
  | .new data, x => (x.next, ⟨x.next + 1, x.data.insert x.next data⟩)
  | .read cell, x => (x.data[cell]?, x)
  | .write cell f, x =>
    match x.data[cell]? with
    | none => (none, x)
    | some d =>
      match f d with
      | none => (none, { x with data := x.data.erase cell })
      | some d' => (some (d, d'), { x with data := x.data.insert cell d' })

end MemoryFs

open MemoryFs

abbrev memoryTypes : FsTypes where
  Node := Nat
  Handle := Unit
  DirHandle := Unit
  Ext := ⟨MemOp, MemOp.Res⟩

/-- The machine of the cells. -/
abbrev memoryMachine : Machine memoryTypes.Ext := ⟨Cells, fun o x r x' => x.exec o = (r, x')⟩

namespace MemoryFs

variable {O α : Type}

/-- A part of a callback. -/
abbrev Body (O α : Type) := Prog (cbSig memoryTypes O) Exit α

/-! ## Sections -/

/-- `node.read()`, and what is made of the data. -/
def readNode (cell : Nat) (f : NodeData → Except Exit α) : Body O α :=
  .op (.cx (.ext (.read cell))) fun
    | none => .exit .panic
    | some d => .leave (f d)

/-- `node.write()` and an update; the data before and after. -/
def writeNode (cell : Nat) (f : NodeData → Option NodeData) : Body O (NodeData × NodeData) :=
  .op (.cx (.ext (.write cell f))) fun
    | none => .exit .panic
    | some d => .ret d

/-- A scope with `cx.get(id)`, if there is such a node. -/
def withRef (id : NodeId) (absent : Body O α) (body : Nat → Body O α) : Body O α :=
  .op (.cx (.get id)) fun
    | none => .exit .panic
    | some none => absent
    | some (some ref) => (body ref.record.payload).andFinally (.op (.cx (.drop ref)) .ret)

/-- `cx.get(id).ok_or(Errno::ENOENT)?` and a look at the data. -/
def peek (id : NodeId) (f : NodeData → Except Exit α) : Body O α :=
  withRef id (.exit (.errno .ENOENT)) fun cell => readNode cell f

/-- `if let Some(node) = cx.get(id)` around an update: the data before and after, if there is such a
node. -/
def poke (id : NodeId) (f : NodeData → Option NodeData) : Body O (Option (NodeData × NodeData)) :=
  withRef id (.ret none) fun cell => writeNode cell f >>= fun d => .ret (some d)

/-! ## Entries -/

def checkNewEntry (parent : NodeId) (name : OsStr) : Body O Unit :=
  peek parent fun d =>
    match d.content with
    | .dir entries => if entries.contains name then .error (.errno .EEXIST) else .ok ()
    | _ => .error (.errno .ENOTDIR)

def entry (parent : NodeId) (name : OsStr) : Body O DirEntry :=
  peek parent fun d =>
    match d.content with
    | .dir entries => okOr entries[name]? .ENOENT
    | _ => .error (.errno .ENOTDIR)

/-- `entry`, with `ENOENT` as `None` (in `lookup` and `rename`). -/
def findEntry (parent : NodeId) (name : OsStr) : Body O (Option DirEntry) :=
  (entry parent name).attempt >>= fun
    | .ok found => .ret (some found)
    | .error (.errno e) => if e = .ENOENT then .ret none else .exit (.errno e)
    | .error .panic => .exit .panic

def kind (id : NodeId) : Body O FileKind := peek id fun d => .ok d.kind

def linkInto (parent : NodeId) (name : OsStr) (entry : DirEntry) : Body O Unit :=
  poke parent (fun d =>
    let d := d.onEntries (·.insert name entry)
    if entry.kind = .directory then d.addNlink else some d) >>= fun _ => .ret ()

def createChild (parent : NodeId) (name : OsStr) (kind : FileKind) (content : Content)
    (perm : Nat) : Body O NodeId :=
  checkNewEntry parent name >>= fun _ =>
    .op (.cx (.ext (.new (.new kind content perm)))) fun cell =>
      .op (.cx (.insert cell parent)) fun
        | none => .exit .panic
        | some id => linkInto parent name ⟨id, kind⟩ >>= fun _ => .ret id

/-! ## Contents -/

/-- `Vec::resize` with zeros; a vector has fewer than 2 ^ 63 bytes. -/
def resize (bytes : List UInt8) (n : Nat) : Option (List UInt8) :=
  if n < 2 ^ 63 then some (bytes.take n ++ List.replicate (n - bytes.length) 0) else none

/-- `content[offset..offset + data.len()].copy_from_slice(data)`, after the vector was made long
enough. -/
def splice (bytes data : List UInt8) (offset : Nat) : Option (List UInt8) :=
  let stop := offset + data.length
  if 2 ^ 64 ≤ stop then none
  else do
    let bytes ← if bytes.length < stop then resize bytes stop else some bytes
    return bytes.take offset ++ data ++ bytes.drop stop

/-- `content[offset..end].to_vec()`. -/
def slice (bytes : List UInt8) (offset size : Nat) : Except Exit (List UInt8) :=
  if bytes.length ≤ offset then .ok []
  else if 2 ^ 64 ≤ offset + size then .error .panic
  else .ok ((bytes.take (min (offset + size) bytes.length)).drop offset)

/-- `if let (Some(size), Content::File(content)) = (set.size, &mut node.content)`. -/
def truncated (size : Option Nat) (d : NodeData) : Option NodeData :=
  match size, d.content with
  | some size, .file bytes => (resize bytes size).map fun bytes => { d with content := .file bytes }
  | _, _ => some d

/-- What `setattr` makes of the data. -/
def applied (set : SetAttr) (d : NodeData) : Option NodeData :=
  truncated set.size (match set.mode with
    | some mode => { d with perm := mode &&& 0o7777 }
    | none => d)

/-! ## Directory reads -/

/-- The loop of `readdir` over the entries from the `i`th on. -/
def offerFrom : List (OsStr × DirEntry) → (i : Nat) → Body DirOffer Unit
  | [], _ => .ret ()
  | (name, entry) :: rest, i => .op (.offer ⟨name, entry.id, entry.kind, i + 3⟩) fun
    | none => .exit .panic
    | some took => if took then offerFrom rest (i + 1) else .ret ()

/-- `readdir` once `.` and `..` are done with. -/
def offerEntries (entries : List (OsStr × DirEntry)) (cursor : Nat) : Body DirOffer Unit :=
  offerFrom (entries.drop (cursor - 2)) (cursor - 2)

/-- Offer one of the two names that are not stored, if the cursor is before it, and go on behind
it. -/
def offerDot (name : OsStr) (id : NodeId) (place cursor : Nat)
    (rest : Nat → Body DirOffer Unit) : Body DirOffer Unit :=
  if cursor < place then
    .op (.offer ⟨name, id, .directory, place⟩) fun
      | none => .exit .panic
      | some took => if took then rest place else .ret ()
  else rest cursor

/-! ## Changing entries -/

def unlink (parent : NodeId) (name : OsStr) : Body O Unit :=
  entry parent name >>= fun found => kind found.id >>= fun kind =>
    if kind = .directory then .exit (.errno .EISDIR)
    else poke parent (fun d => some (d.onEntries (·.erase name))) >>= fun _ =>
      poke found.id (fun d => some d.subNlink) >>= fun _ =>
        .op (.cx (.removeLink found.id)) .ret

/-- The check of `rmdir`. -/
def removable (d : NodeData) : Except Exit Unit :=
  match d.content with
  | .dir entries => if entries.isEmpty then .ok () else .error (.errno .ENOTEMPTY)
  | _ => .error (.errno .ENOTDIR)

/-- The reference to the child is held to the end. -/
def rmdir (parent : NodeId) (name : OsStr) : Body O Unit :=
  entry parent name >>= fun found =>
    withRef found.id (.exit (.errno .ENOENT)) fun child =>
      readNode child removable >>= fun _ =>
        poke parent (fun d => some (d.onEntries (·.erase name)).subNlink) >>= fun _ =>
          poke found.id (fun d => some { d with nlink := 0 }) >>= fun _ =>
            .op (.cx (.removeLink found.id)) .ret

/-- The check of `rename` for an entry that is to be replaced. -/
def replaceable (target : FileKind) (d : NodeData) : Except Exit Unit :=
  match d.content with
  | .dir entries =>
    if target ≠ .directory then .error (.errno .EISDIR)
    else if entries.isEmpty then .ok () else .error (.errno .ENOTEMPTY)
  | _ => if target = .directory then .error (.errno .ENOTDIR) else .ok ()

/-- What `entries.insert` returns in `rename`. -/
def replaced (newname : OsStr) : Option (NodeData × NodeData) → Except Exit (Option DirEntry)
  | none => .ok none
  | some (before, _) =>
    match before.content with
    | .dir entries => .ok entries[newname]?
    | _ => .error (.errno .ENOTDIR)

/-- The end of `rename`: what becomes of an entry that was replaced. -/
def dropReplaced (newparent : NodeId) : Option DirEntry → Body O Unit
  | none => .ret ()
  | some replaced =>
    (if replaced.kind = .directory then
      poke newparent (fun d => some d.subNlink) >>= fun _ => .ret ()
    else .ret ()) >>= fun _ =>
      poke replaced.id (fun d => some
        (if replaced.kind = .directory then { d with nlink := 0 } else d.subNlink)) >>= fun _ =>
        .op (.cx (.removeLink replaced.id)) .ret

/-- The part of `rename` for a directory that gets another parent. -/
def adopt (parent newparent id : NodeId) : Body O Unit :=
  .op (.cx (.reparent id newparent)) fun _ =>
    poke parent (fun d => some d.subNlink) >>= fun _ =>
      poke newparent NodeData.addNlink >>= fun _ => .ret ()

/-- `rename` once it has been found possible. -/
def move (parent : NodeId) (name : OsStr) (newparent : NodeId) (newname : OsStr)
    (target : DirEntry) : Body O Unit :=
  poke parent (fun d => some (d.onEntries (·.erase name))) >>= fun _ =>
    poke newparent (fun d => some (d.onEntries (·.insert newname target))) >>= fun inserted =>
      .leave (replaced newname inserted) >>= fun old =>
        poke newparent some >>= fun _ =>
          (if target.kind = .directory ∧ parent ≠ newparent then adopt parent newparent target.id
          else .ret ()) >>= fun _ => dropReplaced newparent old

def rename (parent : NodeId) (name : OsStr) (newparent : NodeId) (newname : OsStr) : Body O Unit :=
  entry parent name >>= fun found => kind found.id >>= fun kind =>
    findEntry newparent newname >>= fun
      | none => move parent name newparent newname ⟨found.id, kind⟩
      | some existing =>
        if existing.id = found.id then .ret ()
        else peek existing.id (replaceable kind) >>= fun _ =>
          move parent name newparent newname ⟨found.id, kind⟩

def link (id newparent : NodeId) (newname : OsStr) : Body O NodeId :=
  kind id >>= fun first =>
    if first = .directory then .exit (.errno .EPERM)
    else checkNewEntry newparent newname >>= fun _ => kind id >>= fun kind =>
      linkInto newparent newname ⟨id, kind⟩ >>= fun _ =>
        .op (.cx (.addLink id)) fun
          | none => .exit .panic
          | some _ => poke id NodeData.addNlink >>= fun _ => .ret id

/-! ## The other callbacks -/

/-- What `mknod` makes of the type bits of a mode. -/
def specialKind (mode : Nat) : Option (FileKind × Content) :=
  match mode &&& 0o170000 with
  | 0o100000 => some (.regularFile, .file [])
  | 0o010000 => some (.namedPipe, .special)
  | 0o140000 => some (.socket, .special)
  | 0o020000 => some (.charDevice, .special)
  | 0o060000 => some (.blockDevice, .special)
  | _ => none

def mknod (parent : NodeId) (name : OsStr) (mode : Nat) : Body O NodeId :=
  match specialKind mode with
  | some (kind, content) => createChild parent name kind content (mode &&& 0o7777)
  | none => .exit (.errno .EINVAL)

def write (cell : Nat) (data : List UInt8) (offset : Nat) : Body O Nat :=
  writeNode cell (fun d =>
    match d.content with
    | .file bytes => (splice bytes data offset).map fun bytes => { d with content := .file bytes }
    | _ => some d) >>= fun (before, _) =>
    match before.content with
    | .file _ => .ret data.length
    | _ => .exit (.errno .EISDIR)

def readdir (cell : Nat) (this parent : NodeId) (offset : Nat) : Body DirOffer Unit :=
  readNode cell (fun d =>
    match d.content with
    | .dir entries => .ok entries.toList
    | _ => .error (.errno .ENOTDIR)) >>= fun entries =>
    offerDot .dot this 1 offset fun cursor =>
      offerDot .dotDot parent 2 cursor fun cursor => offerEntries entries cursor

def setxattr (cell : Nat) (name : OsStr) (value : List UInt8) (flags : Nat) : Body O Unit :=
  let refused (d : NodeData) : Option Errno :=
    if flags &&& 1 ≠ 0 ∧ d.xattrs.contains name then some .EEXIST
    else if flags &&& 2 ≠ 0 ∧ d.xattrs.contains name = false then some .ENODATA
    else none
  writeNode cell (fun d => some
    (if (refused d).isSome then d else { d with xattrs := d.xattrs.insert name value })) >>=
    fun (before, _) =>
      match refused before with
      | some e => .exit (.errno e)
      | none => .ret ()

def removexattr (cell : Nat) (name : OsStr) : Body O Unit :=
  writeNode cell (fun d => some { d with xattrs := d.xattrs.erase name }) >>= fun (before, _) =>
    if before.xattrs.contains name then .ret () else .exit (.errno .ENODATA)

/-- The reply to a question for bytes: their number, if no room is offered. -/
def xattrReply (bytes : List UInt8) (size : Nat) : XattrReply :=
  if size = 0 then .size bytes.length else .data bytes

def listxattr (cell : Nat) (size : Nat) : Body O XattrReply :=
  readNode cell fun d => .ok (xattrReply (d.xattrs.keys.flatMap (· ++ [0])) size)

end MemoryFs

open MemoryFs in
/-- `impl NodeFs for MemoryFs`. -/
def memoryFs : NodeFs memoryTypes where
  getattr cell _ _ := readNode cell fun d => .ok d.attr
  opendir cell _ _ := readNode cell fun d =>
    if d.kind ≠ .directory then .error (.errno .ENOTDIR) else .ok ⟨(), {}⟩
  setattr cell _ set _ := writeNode cell (applied set) >>= fun (_, after) => .ret after.attr
  readlink cell _ := readNode cell fun d =>
    match d.content with
    | .symlink target => .ok target
    | _ => .error (.errno .EINVAL)
  lookup parent name _ := findEntry parent name >>= fun found => .ret (found.map (·.id))
  mknod parent name mode _ _ _ := MemoryFs.mknod parent name mode
  mkdir parent name mode _ _ := createChild parent name .directory (.dir ∅) (mode &&& 0o7777)
  symlink parent name target _ := createChild parent name .symlink (.symlink target) 0o777
  create parent name mode _ _ _ :=
    createChild parent name .regularFile (.file []) (mode &&& 0o7777) >>= fun id =>
      .ret (id, ⟨(), {}⟩)
  unlink parent name _ := MemoryFs.unlink parent name
  rmdir parent name _ := MemoryFs.rmdir parent name
  rename parent name newparent newname _ _ := MemoryFs.rename parent name newparent newname
  link id newparent newname _ := MemoryFs.link id newparent newname
  «open» cell _ _ := readNode cell fun d =>
    if d.kind = .directory then .error (.errno .EISDIR) else .ok ⟨(), {}⟩
  read cell _ offset size _ := readNode cell fun d =>
    match d.content with
    | .file bytes => slice bytes offset size
    | _ => .error (.errno .EISDIR)
  write cell _ data offset _ := MemoryFs.write cell data offset
  readdir cell this parent _ offset _ := MemoryFs.readdir cell this parent offset
  setxattr cell name value flags _ := MemoryFs.setxattr cell name value flags
  getxattr cell name size _ := readNode cell fun d => do
    let value ← okOr d.xattrs[name]? .ENODATA
    return xattrReply value size
  listxattr cell size _ := MemoryFs.listxattr cell size
  removexattr cell name _ := MemoryFs.removexattr cell name

/-- A runtime on a `MemoryFs` before its first request: the root is an empty directory. -/
def MemoryFs.world : World memoryTypes Cells :=
  .new (0 : Nat) ⟨1, (∅ : ExtTreeMap Nat NodeData).insert 0 (.new .directory (.dir ∅) 0o755)⟩

end TypedFuse
