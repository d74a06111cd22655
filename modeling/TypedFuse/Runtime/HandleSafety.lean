import TypedFuse.Runtime.Accounting
import TypedFuse.Runtime.HandleLog

/-!
# Handles under every interleaving

Requests run at once, at the granularity of the mutexes, each on a filesystem that behaves as it
likes.  `handles_bound_and_consumed_once` is what then holds of every handle number, lease, payload
and open count.

Which leases a request takes, and how it ends without one, is a rule about its own operations
(`Request.rule`, `Request.Leased`); what the table does with them is the history of
`TypedFuse/Runtime/HandleLog.lean`; that a release finds its node again is what the open it still
holds is for (`release_never_strands`).
-/

namespace TypedFuse

open Std Prog NodeTable

variable {K : FsTypes} {X : Machine K.Ext} {α σ : Type}

/-- A request and the filesystem that serves it. -/
structure Call (K : FsTypes) where
  fs : NodeFs K
  request : Request

def Call.prog (c : Call K) : Action K Reply := c.request.run c.fs

/-! ## Histories of the two maps -/

variable {ρ : Type}

def RtOp.fileEvent (thread : Nat) : (o : RtOp K) → o.Res → Option (HandleEvent K.Handle)
  | .addFile node handle, r => r.map fun fh => .issued fh node handle
  | .file o, r => some (.done thread o r)
  | _, _ => none

def RtOp.dirEvent (thread : Nat) : (o : RtOp K) → o.Res → Option (HandleEvent K.DirHandle)
  | .addDir node handle, r => r.map fun fh => .issued fh node handle
  | .dir o, r => some (.done thread o r)
  | _, _ => none

def RtOp.issues : (o : RtOp K) → o.Res → Option Nat
  | .addFile _ _, r => r
  | .addDir _ _, r => r
  | _, _ => none

def fileEvent : Label (rtSig K) ρ → Option (HandleEvent K.Handle)
  | .start _ => none
  | .op thread o r => RtOp.fileEvent thread o r

def dirEvent : Label (rtSig K) ρ → Option (HandleEvent K.DirHandle)
  | .start _ => none
  | .op thread o r => RtOp.dirEvent thread o r

def issuedNumber : Label (rtSig K) ρ → Option Nat
  | .start _ => none
  | .op _ o r => RtOp.issues o r

/-- What has happened to the file handles. -/
def fileLog (tr : List (Label (rtSig K) ρ)) : List (HandleEvent K.Handle) := tr.filterMap fileEvent

/-- What has happened to the directory handles. -/
def dirLog (tr : List (Label (rtSig K) ρ)) : List (HandleEvent K.DirHandle) :=
  tr.filterMap dirEvent

/-- The handle numbers issued, of both kinds. -/
def issuedNumbers (tr : List (Label (rtSig K) ρ)) : List Nat := tr.filterMap issuedNumber

theorem filterMap_snoc {A B : Type} (f : A → Option B) (l : List A) (a : A) :
    (l ++ [a]).filterMap f = l.filterMap f ++ (f a).toList := by
  rw [List.filterMap_append]
  cases eq : f a <;> simp [eq]

/-! ## What a request asks for -/

/-- The handle a request works on. -/
inductive Wanted
  | nothing
  | file (ino fh : Nat)
  | dir (ino fh : Nat)
  | newest (ino : Nat)

def Request.wants : Request → Wanted
  | .getattr ino fh _ => fh.elim (.newest ino) (.file ino)
  | .setattr ino fh _ _ => fh.elim (.newest ino) (.file ino)
  | .read ino fh _ _ _ => .file ino fh
  | .write ino fh _ _ _ => .file ino fh
  | .flush ino fh _ => .file ino fh
  | .fsync ino fh _ _ => .file ino fh
  | .fallocate ino fh _ _ _ _ => .file ino fh
  | .lseek ino fh _ _ _ => .file ino fh
  | .getlk ino fh _ _ _ => .file ino fh
  | .setlk ino fh _ _ _ _ => .file ino fh
  | .flock ino fh _ _ => .file ino fh
  | .readdir ino fh _ _ => .dir ino fh
  | .readdirplus ino fh _ _ => .dir ino fh
  | .fsyncdir ino fh _ _ => .dir ino fh
  | _ => .nothing

/-- What a release has done when it moves the payload out. -/
def releasedFile (ino fh : Nat) (ref : NodeRef K.Node) : Past (rtSig K) :=
  [⟨.file (.remove ino fh), true⟩, ⟨.get ino, some (some ref)⟩, ⟨.removeOpen ino, ()⟩,
    ⟨.file (.close fh), ()⟩]

def releasedDir (ino fh : Nat) (ref : NodeRef K.Node) : Past (rtSig K) :=
  [⟨.dir (.remove ino fh), true⟩, ⟨.get ino, some (some ref)⟩, ⟨.removeOpen ino, ()⟩,
    ⟨.dir (.close fh), ()⟩]

/-- When a request may take a lease or move a payload out, given what it has done. -/
def Request.rule (q : Request) (h : Past (rtSig K)) : RtOp K → Prop
  | .file (.acquire fh) => ∃ ino, q.wants = .file ino fh ∧ ⟨.file (.find fh), some ino⟩ ∈ h
  | .dir (.acquire fh) => ∃ ino, q.wants = .dir ino fh ∧ ⟨.dir (.find fh), some ino⟩ ∈ h
  | .file (.scan ino) => q.wants = .newest ino
  | .dir (.scan _) => False
  | .file (.take fh) => ∃ ino caller ref, q = .release ino fh caller ∧ h = releasedFile ino fh ref
  | .dir (.take fh) => ∃ ino caller ref, q = .releasedir ino fh caller ∧ h = releasedDir ino fh ref
  | _ => True

/-- How a request on a handle of `ino` can end without a lease. -/
def Refused (ino : Nat) (h : Past (rtSig K)) (out : Except Exit α) : Prop :=
  out = .error (.errno .EBADF) ∨
  (out = .error (.errno .ENOENT) ∧ (⟨.get ino, some none⟩ ∈ h ∨ ⟨.parentOf ino, none⟩ ∈ h)) ∨
  (out = .error .panic ∧ ∃ e ∈ h, RtOp.overflows e.1 e.2 = true)

/-- A request has its lease or is refused. -/
def Request.Leased (q : Request) (h : Past (rtSig K)) (out : Except Exit α) : Prop :=
  match q.wants with
  | .file ino fh => (∃ handle, ⟨.file (.acquire fh), some (some handle)⟩ ∈ h) ∨ Refused ino h out
  | .dir ino fh => (∃ handle, ⟨.dir (.acquire fh), some (some handle)⟩ ∈ h) ∨ Refused ino h out
  | _ => True

/-- What a release has done when it ends: it was refused, its node could not be leased, or it has
moved the payload out. -/
def Request.Released (q : Request) (h : Past (rtSig K)) (out : Except Exit α) : Prop :=
  match q with
  | .release ino fh _ =>
      (h = [⟨.file (.remove ino fh), false⟩] ∧ out = .error (.errno .EBADF)) ∨
      h = [⟨.file (.remove ino fh), true⟩, ⟨.get ino, none⟩] ∨
      h = [⟨.file (.remove ino fh), true⟩, ⟨.get ino, some none⟩] ∨
      ∃ ref handle, releasedFile ino fh ref ++ [⟨.file (.take fh), handle⟩] <+: h
  | .releasedir ino fh _ =>
      (h = [⟨.dir (.remove ino fh), false⟩] ∧ out = .error (.errno .EBADF)) ∨
      h = [⟨.dir (.remove ino fh), true⟩, ⟨.get ino, none⟩] ∨
      h = [⟨.dir (.remove ino fh), true⟩, ⟨.get ino, some none⟩] ∨
      ∃ ref handle, releasedDir ino fh ref ++ [⟨.dir (.take fh), handle⟩] <+: h
  | _ => True

/-! ## Every request keeps its rule -/

section Rules

variable {q : Request} {h : Past (rtSig K)}

theorem call_keeps {ε : Type} (cb : Prog (cbSig K Empty) ε α) :
    (Runtime.call cb).Keeps q.rule := by
  refine Keeps.interp fun o => ?_
  cases o with
  | cx o => exact .op (fun _ => trivial) fun _ => .ret
  | offer e => exact nomatch e

theorem dropRef_keeps (ref : NodeRef K.Node) :
    (Prog.op (.dropRef ref) .ret : Action K Unit).Keeps q.rule :=
  .op (fun _ => trivial) fun _ => .ret

theorem withNode_keeps {ino : Nat} {body : NodeRef K.Node → Action K α}
    (keeps : ∀ ref, (body ref).Keeps q.rule) : (Runtime.withNode ino body).Keeps q.rule := by
  refine .bind (.op (fun _ => trivial) fun r => ?_) fun ref => (keeps ref).andFinally (dropRef_keeps ref)
  match r with
  | none => exact .exit
  | some none => exact .exit
  | some (some ref) => exact .ret

theorem entryFor_keeps (fs : NodeFs K) (id : NodeId) (caller : Caller) :
    (Runtime.entryFor fs id caller).Keeps q.rule := by
  refine withNode_keeps fun n => .bind (call_keeps _) fun attr => .op (fun _ => trivial) fun r => ?_
  match r with
  | none => exact .exit
  | some none => exact .exit
  | some (some generation) => exact .ret

theorem forget_keeps (fs : NodeFs K) (ino nlookup : Nat) :
    (Runtime.forget fs ino nlookup).Keeps q.rule := by
  refine .op (fun _ => trivial) fun r => ?_
  match r with
  | none => exact .exit
  | some none => exact .ret
  | some (some (some ref)) => exact (call_keeps _).mapExit.andFinally (dropRef_keeps ref)
  | some (some none) => exact .op (fun _ => trivial) fun _ => .ret

theorem forgetEach_keeps (fs : NodeFs K) (ids : List NodeId) :
    (Runtime.forgetEach fs ids).Keeps q.rule := by
  induction ids with
  | nil => exact .ret
  | cons id rest ih => exact (forget_keeps fs id 1).bind fun _ => ih

theorem addOpen_keeps (ino : Nat) : (Runtime.addOpen ino : Action K Unit).Keeps q.rule := by
  refine .op (fun _ => trivial) fun r => ?_
  match r with
  | none => exact .exit
  | some false => exact .exit
  | some true => exact .ret

theorem bindFile_keeps (ino : Nat) (opened : Opened K.Handle) :
    (Runtime.bindFile ino opened).Keeps q.rule := by
  refine (addOpen_keeps ino).bind fun _ => .op (fun _ => trivial) fun r => ?_
  match r with
  | none => exact .exit
  | some fh => exact .ret

theorem bindDir_keeps (ino : Nat) (opened : Opened K.DirHandle) :
    (Runtime.bindDir ino opened).Keeps q.rule := by
  refine (addOpen_keeps ino).bind fun _ => .op (fun _ => trivial) fun r => ?_
  match r with
  | none => exact .exit
  | some fh => exact .ret

/-- A directory read keeps the rule if its sink does. -/
theorem callRead_keeps {O : Type} {sink : O → σ → Action K (Option Bool × σ)}
    (keeps : ∀ e s, (sink e s).Keeps q.rule) (cb : ReadCallback K O α) (s : σ) :
    (Runtime.callRead sink cb s).Keeps q.rule := by
  refine Keeps.interpState (fun o s => ?_) s
  cases o with
  | cx o => exact .op (fun _ => trivial) fun _ => .ret
  | offer e => exact keeps e s

theorem accounting_keeps {sink : PlusEntry → σ → Action K (Option Bool × σ)}
    (keeps : ∀ e s, (sink e s).Keeps q.rule) (offer : PlusOffer) (s : Runtime.Accounting σ) :
    (Runtime.Accounting.add sink offer s).Keeps q.rule := by
  refine .op (fun _ => trivial) fun r => ?_
  match r with
  | none => exact .ret
  | some generation =>
      refine (keeps _ _).bind fun r => ?_
      match r with
      | (none, inner) => exact .ret
      | (some false, inner) => exact .ret
      | (some true, inner) =>
          dsimp only
          split
          · refine .op (fun _ => trivial) fun r => ?_
            match r with
            | none => exact .ret
            | some none => exact .ret
            | some (some generation) => exact .ret
          · exact .ret

theorem pageSink_keeps (ino : Nat) (e : DirOffer) (page : List DirOffer) :
    (pageSink (K := K) ino e page).Keeps q.rule := .op (fun _ => trivial) fun _ => .ret

theorem plusPageSink_keeps (ino : Nat) (e : PlusEntry) (page : List PlusEntry) :
    (plusPageSink (K := K) ino e page).Keeps q.rule := .op (fun _ => trivial) fun _ => .ret

/-! ## How requests on a handle end -/

theorem Refused.grow {ino : Nat} {h' : Past (rtSig K)} {out : Except Exit α}
    (refused : Refused ino h out) (grown : h <+: h') : Refused ino h' out := by
  rcases refused with bad | ⟨dead, mem⟩ | ⟨panic, e, mem, overflows⟩
  · exact .inl bad
  · exact .inr (.inl ⟨dead, mem.imp grown.mem grown.mem⟩)
  · exact .inr (.inr ⟨panic, e, grown.mem mem, overflows⟩)

/-- The request has a lease on the file handle, or is refused. -/
def LeasedFile (ino fh : Nat) (h : Past (rtSig K)) (out : Except Exit α) : Prop :=
  (∃ handle, ⟨.file (.acquire fh), some (some handle)⟩ ∈ h) ∨ Refused ino h out

def LeasedDir (ino fh : Nat) (h : Past (rtSig K)) (out : Except Exit α) : Prop :=
  (∃ handle, ⟨.dir (.acquire fh), some (some handle)⟩ ∈ h) ∨ Refused ino h out

theorem LeasedFile.grow {ino fh : Nat} {h' : Past (rtSig K)} {out : Except Exit α}
    (leased : LeasedFile ino fh h out) (grown : h <+: h') : LeasedFile ino fh h' out :=
  leased.imp (fun ⟨handle, mem⟩ => ⟨handle, grown.mem mem⟩) fun refused => refused.grow grown

theorem LeasedDir.grow {ino fh : Nat} {h' : Past (rtSig K)} {out : Except Exit α}
    (leased : LeasedDir ino fh h out) (grown : h <+: h') : LeasedDir ino fh h' out :=
  leased.imp (fun ⟨handle, mem⟩ => ⟨handle, grown.mem mem⟩) fun refused => refused.grow grown

theorem withFile_obeys {ino fh : Nat} {body : K.Handle → Action K α}
    (wants : q.wants = .file ino fh) (keeps : ∀ handle, (body handle).Keeps q.rule) :
    (Runtime.withFile ino fh body).Obeys q.rule (LeasedFile ino fh) h := by
  have refused : ∀ {h : Past (rtSig K)}, LeasedFile (α := α) ino fh h (.error (.errno .EBADF)) :=
    .inr (.inl rfl)
  refine Obeys.bind ⟨trivial, fun node => ?_⟩
  match node with
  | none => exact refused
  | some node =>
      show Prog.Obeys _ _ (if node ≠ ino then _ else _) _
      split
      · exact refused
      · rename_i same
        have same : node = ino := not_not.mp same
        subst same
        refine ⟨⟨node, wants, List.mem_append_right _ List.mem_cons_self⟩, fun r => ?_⟩
        match r with
        | none =>
            exact .inr (.inr (.inr ⟨rfl, _, List.mem_append_right _ List.mem_cons_self, rfl⟩))
        | some none => exact refused
        | some (some handle) =>
            refine Obeys.andFinally ((keeps handle _).grows.mono fun h' out done => ?_)
            refine ⟨trivial, fun _ => ⟨rfl, .inl ⟨handle, ?_⟩⟩⟩
            refine List.mem_append_left _ (done.2.mem ?_)
            exact List.mem_append_right _ List.mem_cons_self

theorem withDir_obeys {ino fh : Nat} {body : K.DirHandle → Action K α}
    (wants : q.wants = .dir ino fh) (keeps : ∀ handle, (body handle).Keeps q.rule) :
    (Runtime.withDir ino fh body).Obeys q.rule (LeasedDir ino fh) h := by
  have refused : ∀ {h : Past (rtSig K)}, LeasedDir (α := α) ino fh h (.error (.errno .EBADF)) :=
    .inr (.inl rfl)
  refine Obeys.bind ⟨trivial, fun node => ?_⟩
  match node with
  | none => exact refused
  | some node =>
      show Prog.Obeys _ _ (if node ≠ ino then _ else _) _
      split
      · exact refused
      · rename_i same
        have same : node = ino := not_not.mp same
        subst same
        refine ⟨⟨node, wants, List.mem_append_right _ List.mem_cons_self⟩, fun r => ?_⟩
        match r with
        | none =>
            exact .inr (.inr (.inr ⟨rfl, _, List.mem_append_right _ List.mem_cons_self, rfl⟩))
        | some none => exact refused
        | some (some handle) =>
            refine Obeys.andFinally ((keeps handle _).grows.mono fun h' out done => ?_)
            refine ⟨trivial, fun _ => ⟨rfl, .inl ⟨handle, ?_⟩⟩⟩
            refine List.mem_append_left _ (done.2.mem ?_)
            exact List.mem_append_right _ List.mem_cons_self

/-- A scope with a node lease ends as its body does, or without the node. -/
theorem withNode_obeys {ino : Nat} {body : NodeRef K.Node → Action K α}
    {ψ : Past (rtSig K) → Except Exit α → Prop}
    (grow : ∀ {h h' : Past (rtSig K)} {out : Except Exit α}, ψ h out → h <+: h' → ψ h' out)
    (refused : ∀ {h : Past (rtSig K)} {out : Except Exit α}, Refused ino h out → ψ h out)
    (obeys : ∀ ref h, (body ref).Obeys q.rule ψ h) :
    (Runtime.withNode ino body).Obeys q.rule ψ h := by
  refine Obeys.bind ⟨trivial, fun r => ?_⟩
  match r with
  | none =>
      exact refused (.inr (.inr ⟨rfl, _, List.mem_append_right _ List.mem_cons_self, rfl⟩))
  | some none =>
      exact refused (.inr (.inl ⟨rfl, .inl (List.mem_append_right _ List.mem_cons_self)⟩))
  | some (some ref) =>
      refine Obeys.andFinally ((obeys ref _).mono fun h' out done => ⟨trivial, fun _ => ⟨rfl, ?_⟩⟩)
      exact grow done (List.prefix_append _ _)

theorem onFile_obeys {ino fh : Nat} {callback : K.Node → K.Handle → Callback K α}
    (wants : q.wants = .file ino fh) :
    (Runtime.onFile ino fh callback).Obeys q.rule (LeasedFile ino fh) h :=
  withNode_obeys LeasedFile.grow .inr fun _ _ => withFile_obeys wants fun _ => call_keeps _

theorem onDir_obeys {ino fh : Nat} {body : K.Node → NodeId → K.DirHandle → Action K α}
    (wants : q.wants = .dir ino fh)
    (keeps : ∀ n parent handle, (body n parent handle).Keeps q.rule) :
    (Runtime.onDir ino fh body).Obeys q.rule (LeasedDir ino fh) h := by
  refine withNode_obeys LeasedDir.grow .inr fun ref h => ⟨trivial, fun r => ?_⟩
  match r with
  | none => exact .inr (.inr (.inl ⟨rfl, .inr (List.mem_append_right _ List.mem_cons_self)⟩))
  | some parent => exact withDir_obeys wants fun handle => keeps _ _ _

/-- With a number, the handle of `getattr` and `setattr` is the one it names. -/
theorem withOptionalFile_some (fs : NodeFs K) (ino fh : Nat) (n : K.Node)
    (body : Option K.Handle → Action K α) :
    Runtime.withOptionalFile fs ino n (some fh) body =
      Runtime.withFile ino fh fun handle => body (some handle) :=
  bind_assoc _ _ _

/-- Without one, it may be the newest. -/
theorem withOptionalFile_none_keeps (fs : NodeFs K) {ino : Nat} (n : K.Node)
    {body : Option K.Handle → Action K α} (wants : q.wants = .newest ino)
    (keeps : ∀ handle, (body handle).Keeps q.rule) :
    (Runtime.withOptionalFile fs ino n none body).Keeps q.rule := by
  refine .bind (.op (fun _ => trivial) fun opened => ?_) fun lease => ?_
  · cases opened with
    | false => exact .ret
    | true =>
        refine (call_keeps _).mapExit.bind fun wanted => ?_
        cases wanted with
        | false => exact .ret
        | true =>
            refine .op (fun _ => wants) fun r => ?_
            match r with
            | none => exact .exit
            | some lease => exact .ret
  · match lease with
    | none => exact keeps none
    | some (fh, handle) =>
        exact (keeps (some handle)).andFinally (.op (fun _ => trivial) fun _ => .ret)

/-- The rest of a request from its release callback on. -/
def releasing (cb : Callback K Unit) (ref : NodeRef K.Node) : Action K Reply :=
  (Runtime.call cb).andFinally (.op (.dropRef ref) .ret) >>= fun _ => .ret .unit

theorem releasing_keeps (cb : Callback K Unit) (ref : NodeRef K.Node) :
    (releasing cb ref).Keeps q.rule :=
  ((call_keeps cb).andFinally (dropRef_keeps ref)).bind fun _ => .ret

theorem release_obeys (fs : NodeFs K) (ino fh : Nat) (caller : Caller) :
    ((Request.release ino fh caller).run fs).Obeys (Request.rule (.release ino fh caller))
      (Request.Released (.release ino fh caller)) [] := by
  refine ⟨trivial, fun (removed : Bool) => ?_⟩
  match removed with
  | false => exact .inl ⟨rfl, rfl⟩
  | true =>
      refine ⟨trivial, fun r => ?_⟩
      match r with
      | none => exact .inr (.inl rfl)
      | some none => exact .inr (.inr (.inl rfl))
      | some (some ref) =>
          refine ⟨trivial, fun _ => ⟨trivial, fun _ => ⟨⟨ino, caller, ref, rfl, rfl⟩, ?_⟩⟩⟩
          intro handle
          refine (Obeys.grows (releasing_keeps (fs.release _ handle caller) ref _)).mono ?_
          exact fun h' out done => .inr (.inr (.inr ⟨ref, handle, done.2⟩))

theorem releasedir_obeys (fs : NodeFs K) (ino fh : Nat) (caller : Caller) :
    ((Request.releasedir ino fh caller).run fs).Obeys (Request.rule (.releasedir ino fh caller))
      (Request.Released (.releasedir ino fh caller)) [] := by
  refine ⟨trivial, fun (removed : Bool) => ?_⟩
  match removed with
  | false => exact .inl ⟨rfl, rfl⟩
  | true =>
      refine ⟨trivial, fun r => ?_⟩
      match r with
      | none => exact .inr (.inl rfl)
      | some none => exact .inr (.inr (.inl rfl))
      | some (some ref) =>
          refine ⟨trivial, fun _ => ⟨trivial, fun _ => ⟨⟨ino, caller, ref, rfl, rfl⟩, ?_⟩⟩⟩
          intro handle
          refine (Obeys.grows (releasing_keeps (fs.releasedir _ handle caller) ref _)).mono ?_
          exact fun h' out done => .inr (.inr (.inr ⟨ref, handle, done.2⟩))

end Rules

/-! ## Every request -/

/-- How a request has behaved when it ends. -/
def Request.Behaved (q : Request) (h : Past (rtSig K)) (out : Except Exit α) : Prop :=
  q.Leased h out ∧ q.Released h out

/-- Turning a result into a reply refuses nothing. -/
theorem Refused.reply {p : Action K α} {f : α → Reply} {q : Request} {ino : Nat}
    {L : Past (rtSig K) → Prop} {h : Past (rtSig K)}
    (obeys : p.Obeys q.rule (fun h out => L h ∨ Refused ino h out) h) :
    (p >>= fun a => .ret (f a)).Obeys q.rule (fun h out => L h ∨ Refused ino h out) h := by
  refine Obeys.bind (obeys.mono fun h' out done => ?_)
  cases out with
  | ok a => exact done.imp_right fun refused => by simp [Refused] at refused
  | error e =>
      refine done.imp_right fun refused => ?_
      simpa [Refused] using refused

theorem Request.obeys (fs : NodeFs K) (q : Request) : (q.run fs).Obeys q.rule q.Behaved [] := by
  have free : ∀ {p : Action K Reply}, p.Keeps q.rule → q.wants = .nothing →
      (∀ h (out : Except Exit Reply), q.Released (K := K) h out) → p.Obeys q.rule q.Behaved [] := by
    intro p keeps wants released
    refine (keeps []).mono fun h out _ => ⟨?_, released h out⟩
    unfold Request.Leased
    rw [wants]
    trivial
  have onFile : ∀ {α : Type} {p : Action K α} {f : α → Reply} {ino fh : Nat},
      p.Obeys q.rule (LeasedFile ino fh) [] → q.wants = .file ino fh →
      (∀ h (out : Except Exit Reply), q.Released (K := K) h out) →
      (p >>= fun a => .ret (f a)).Obeys q.rule q.Behaved [] := by
    intro α p f ino fh obeys wants released
    refine (Refused.reply obeys).mono fun h out done => ⟨?_, released h out⟩
    unfold Request.Leased
    rw [wants]
    exact done
  have onDir : ∀ {α : Type} {p : Action K α} {f : α → Reply} {ino fh : Nat},
      p.Obeys q.rule (LeasedDir ino fh) [] → q.wants = .dir ino fh →
      (∀ h (out : Except Exit Reply), q.Released (K := K) h out) →
      (p >>= fun a => .ret (f a)).Obeys q.rule q.Behaved [] := by
    intro α p f ino fh obeys wants released
    refine (Refused.reply obeys).mono fun h out done => ⟨?_, released h out⟩
    unfold Request.Leased
    rw [wants]
    exact done
  cases q with
  | forget ino nlookup =>
      exact free ((forget_keeps fs ino nlookup).bind fun _ => .ret) rfl fun _ _ => trivial
  | statfs caller => exact free ((call_keeps _).bind fun _ => .ret) rfl fun _ _ => trivial
  | getattr ino fh caller =>
      cases fh with
      | some fh =>
          refine onFile (withNode_obeys LeasedFile.grow .inr fun n h => ?_) rfl fun _ _ => trivial
          rw [withOptionalFile_some]
          exact withFile_obeys rfl fun _ => call_keeps _
      | none =>
          refine ((withNode_keeps fun n => withOptionalFile_none_keeps fs _ rfl fun _ =>
            call_keeps _).bind fun _ => .ret) [] |>.mono fun _ _ _ => ⟨trivial, trivial⟩
  | setattr ino fh set caller =>
      cases fh with
      | some fh =>
          refine onFile (withNode_obeys LeasedFile.grow .inr fun n h => ?_) rfl fun _ _ => trivial
          rw [withOptionalFile_some]
          exact withFile_obeys rfl fun _ => call_keeps _
      | none =>
          refine ((withNode_keeps fun n => withOptionalFile_none_keeps fs _ rfl fun _ =>
            call_keeps _).bind fun _ => .ret) [] |>.mono fun _ _ _ => ⟨trivial, trivial⟩
  | readlink ino caller =>
      exact free ((withNode_keeps fun _ => call_keeps _).bind fun _ => .ret) rfl fun _ _ => trivial
  | access ino mask caller =>
      exact free ((withNode_keeps fun _ => call_keeps _).bind fun _ => .ret) rfl fun _ _ => trivial
  | setxattr ino name value flags caller =>
      exact free ((withNode_keeps fun _ => call_keeps _).bind fun _ => .ret) rfl fun _ _ => trivial
  | getxattr ino name size caller =>
      exact free ((withNode_keeps fun _ => call_keeps _).bind fun _ => .ret) rfl fun _ _ => trivial
  | listxattr ino size caller =>
      exact free ((withNode_keeps fun _ => call_keeps _).bind fun _ => .ret) rfl fun _ _ => trivial
  | removexattr ino name caller =>
      exact free ((withNode_keeps fun _ => call_keeps _).bind fun _ => .ret) rfl fun _ _ => trivial
  | «open» ino flags caller =>
      exact free ((withNode_keeps fun _ => (call_keeps _).bind (bindFile_keeps ino)).bind
        fun _ => .ret) rfl fun _ _ => trivial
  | release ino fh caller =>
      exact (release_obeys fs ino fh caller).mono fun _ _ done => ⟨trivial, done⟩
  | opendir ino flags caller =>
      exact free ((withNode_keeps fun _ => (call_keeps _).bind (bindDir_keeps ino)).bind
        fun _ => .ret) rfl fun _ _ => trivial
  | readdir ino fh offset caller =>
      refine onDir (onDir_obeys rfl fun n parent handle => ?_) rfl fun _ _ => trivial
      refine .bind (callRead_keeps (pageSink_keeps ino) _ _) fun r => ?_
      match r with
      | (.ok _, s) => exact .ret
      | (.error e, s) => exact .exit
  | readdirplus ino fh offset caller =>
      refine onDir (onDir_obeys rfl fun n parent handle => ?_) rfl fun _ _ => trivial
      refine .bind (callRead_keeps (accounting_keeps (plusPageSink_keeps ino)) _ _) fun r => ?_
      match r with
      | (.ok _, s) => exact .ret
      | (.error (.errno e), s) => exact (forgetEach_keeps fs _).bind fun _ => .exit
      | (.error .panic, s) => exact .exit
  | fsyncdir ino fh datasync caller =>
      exact onDir (withNode_obeys LeasedDir.grow .inr fun n h => withDir_obeys rfl fun _ =>
        call_keeps _) rfl fun _ _ => trivial
  | releasedir ino fh caller =>
      exact (releasedir_obeys fs ino fh caller).mono fun _ _ done => ⟨trivial, done⟩
  | lookup parent name caller =>
      refine free (((call_keeps _).bind fun id => ?_).bind fun _ => .ret) rfl fun _ _ => trivial
      match id with
      | none => exact .ret
      | some id => exact (entryFor_keeps fs id caller).bind fun _ => .ret
  | mknod parent name mode rdev umask caller =>
      exact free (((call_keeps _).bind fun id => entryFor_keeps fs id caller).bind fun _ => .ret)
        rfl fun _ _ => trivial
  | mkdir parent name mode umask caller =>
      exact free (((call_keeps _).bind fun id => entryFor_keeps fs id caller).bind fun _ => .ret)
        rfl fun _ _ => trivial
  | symlink parent name target caller =>
      exact free (((call_keeps _).bind fun id => entryFor_keeps fs id caller).bind fun _ => .ret)
        rfl fun _ _ => trivial
  | link ino newparent newname caller =>
      exact free (((call_keeps _).bind fun id => entryFor_keeps fs id caller).bind fun _ => .ret)
        rfl fun _ _ => trivial
  | unlink parent name caller =>
      exact free ((call_keeps _).bind fun _ => .ret) rfl fun _ _ => trivial
  | rmdir parent name caller =>
      exact free ((call_keeps _).bind fun _ => .ret) rfl fun _ _ => trivial
  | rename parent name newparent newname flags caller =>
      exact free ((call_keeps _).bind fun _ => .ret) rfl fun _ _ => trivial
  | create parent name mode umask flags caller =>
      exact free (((call_keeps _).bind fun _ => (entryFor_keeps fs _ caller).bind fun _ =>
        (bindFile_keeps _ _).bind fun _ => .ret).bind fun _ => .ret) rfl fun _ _ => trivial
  | copyFileRange ino offIn inoOut offOut len flags caller =>
      exact free ((call_keeps _).bind fun _ => .ret) rfl fun _ _ => trivial
  | read ino fh offset size caller => exact onFile (onFile_obeys rfl) rfl fun _ _ => trivial
  | write ino fh data offset caller => exact onFile (onFile_obeys rfl) rfl fun _ _ => trivial
  | flush ino fh caller => exact onFile (onFile_obeys rfl) rfl fun _ _ => trivial
  | fsync ino fh datasync caller => exact onFile (onFile_obeys rfl) rfl fun _ _ => trivial
  | fallocate ino fh mode offset length caller =>
      exact onFile (onFile_obeys rfl) rfl fun _ _ => trivial
  | lseek ino fh offset whence caller => exact onFile (onFile_obeys rfl) rfl fun _ _ => trivial
  | getlk ino fh owner requested caller => exact onFile (onFile_obeys rfl) rfl fun _ _ => trivial
  | setlk ino fh owner lock sleep caller => exact onFile (onFile_obeys rfl) rfl fun _ _ => trivial
  | flock ino fh operation caller => exact onFile (onFile_obeys rfl) rfl fun _ _ => trivial

/-! ## A release finds its node again -/

/-- From nothing, where lookups are not counted. -/
theorem Request.safe_unlooked (fs : NodeFs K) (q : Request) :
    (q.run fs).Safe (protocol X False) 0 fun _ _ => True := by
  have safe : (q.run fs).Safe (protocol X False) _ _ := Request.safe fs q
  rw [← add_zero (Holdings.looked _)] at safe
  exact Safe.unlooked safe fun _ _ _ => trivial

/-- A callback does not touch the handle table. -/
theorem cxStep_handles {w w' : World K X.State} {o : CxOp K} {r : o.Res}
    (step : World.cxStep X o w r w') : w'.handles = w.handles := by
  cases o with
  | get id => rw [step.2]
  | drop ref => rw [step.2]
  | contains id => rw [step.2]
  | insert payload parent => rw [step.2]
  | reparent id newParent => rw [step]
  | addLink id => rw [step.2]
  | removeLink id => rw [step]
  | ext e => obtain ⟨x, -, rfl⟩ := step; rfl

theorem call_handles {ε : Type} {cb : Prog (cbSig K Empty) ε α} {w w' : World K X.State}
    {out : Except ε α} (run : (Runtime.call cb).Exec (runtime X) w out w') :
    w'.handles = w.handles := by
  induction cb generalizing w with
  | ret a => rw [run.2]
  | exit e => rw [run.2]
  | op o k ih =>
      cases o with
      | cx o =>
          obtain ⟨r, w₁, step, rest⟩ := run
          rw [ih r rest, cxStep_handles step]
      | offer e => exact nomatch e

/-- The history so far, tied to the world it leads to. -/
structure Logged (tr : List (Label (rtSig K) ρ)) (w : World K X.State) : Prop where
  numbers : (issuedNumbers tr).Nodup
  below : ∀ fh ∈ issuedNumbers tr, fh < w.handles.nextFh
  files : LogOf (fileLog tr) w.handles.files
  fileLaw : AllLawful (fileLog tr)
  dirs : LogOf (dirLog tr) w.handles.dirs
  dirLaw : AllLawful (dirLog tr)

namespace Logged

variable {tr : List (Label (rtSig K) ρ)} {w w' : World K X.State}

/-- What a move adds to the history. -/
theorem move {l : Label (rtSig K) ρ}
    (numbers : (issuedNumbers tr ++ (issuedNumber l).toList).Nodup)
    (below : ∀ fh ∈ issuedNumbers tr ++ (issuedNumber l).toList, fh < w.handles.nextFh)
    (files : LogOf (fileLog tr ++ (fileEvent l).toList) w.handles.files)
    (fileLaw : AllLawful (fileLog tr ++ (fileEvent l).toList))
    (dirs : LogOf (dirLog tr ++ (dirEvent l).toList) w.handles.dirs)
    (dirLaw : AllLawful (dirLog tr ++ (dirEvent l).toList)) : Logged (tr ++ [l]) w where
  numbers := by rwa [issuedNumbers, filterMap_snoc]
  below := by rwa [issuedNumbers, filterMap_snoc]
  files := by rwa [fileLog, filterMap_snoc]
  fileLaw := by rwa [fileLog, filterMap_snoc]
  dirs := by rwa [dirLog, filterMap_snoc]
  dirLaw := by rwa [dirLog, filterMap_snoc]

/-- A move that is none of the handle table's. -/
theorem pass (logged : Logged tr w) {l : Label (rtSig K) ρ} (same : w'.handles = w.handles)
    (number : issuedNumber l = none) (file : fileEvent l = none) (dir : dirEvent l = none) :
    Logged (tr ++ [l]) w' := by
  apply move <;> simp only [number, file, dir, same, Option.toList_none, List.append_nil]
  · exact logged.numbers
  · exact logged.below
  · exact logged.files
  · exact logged.fileLaw
  · exact logged.dirs
  · exact logged.dirLaw

theorem onFile {thread : Nat} {o : HandleOp} {r : o.Res K.Handle} {files : Handles K.Handle}
    (logged : Logged tr w) (guard : w.handles.files.Guard o)
    (step : w.handles.files.step o r files) :
    Logged (tr ++ [.op thread (.file o) r])
      ({ w with handles := { w.handles with files } } : World K X.State) := by
  obtain ⟨log, law⟩ := logged.files.section_ guard step
  refine move ?_ ?_ log (logged.fileLaw.snoc law) ?_ ?_
  · exact (List.append_nil _).symm ▸ logged.numbers
  · exact (List.append_nil _).symm ▸ logged.below
  · exact (List.append_nil _).symm ▸ logged.dirs
  · exact (List.append_nil _).symm ▸ logged.dirLaw

theorem onDir {thread : Nat} {o : HandleOp} {r : o.Res K.DirHandle} {dirs : Handles K.DirHandle}
    (logged : Logged tr w) (guard : w.handles.dirs.Guard o)
    (step : w.handles.dirs.step o r dirs) :
    Logged (tr ++ [.op thread (.dir o) r])
      ({ w with handles := { w.handles with dirs } } : World K X.State) := by
  obtain ⟨log, law⟩ := logged.dirs.section_ guard step
  refine move ?_ ?_ ?_ ?_ log (logged.dirLaw.snoc law)
  · exact (List.append_nil _).symm ▸ logged.numbers
  · exact (List.append_nil _).symm ▸ logged.below
  · exact (List.append_nil _).symm ▸ logged.files
  · exact (List.append_nil _).symm ▸ logged.fileLaw

/-- The next number has not been issued. -/
theorem nodup_next {numbers : List Nat} {next : Nat} (nodup : numbers.Nodup)
    (below : ∀ fh ∈ numbers, fh < next) : (numbers ++ [next]).Nodup := by
  refine List.nodup_append.mpr ⟨nodup, List.nodup_singleton next, ?_⟩
  intro fh mem fh' mem' same
  rw [List.mem_singleton] at mem'
  have := below fh mem
  omega

theorem below_next {numbers : List Nat} {next : Nat} (below : ∀ fh ∈ numbers, fh < next) :
    ∀ fh ∈ numbers ++ [next], fh < next + 1 := by
  intro fh mem
  rcases List.mem_append.mp mem with mem | mem
  · have := below fh mem
    omega
  · rw [List.mem_singleton] at mem
    omega

theorem addFile {thread : Nat} {node : NodeId} {handle : K.Handle} (logged : Logged tr w)
    (fresh : w.handles.files.records[w.handles.nextFh]? = none) :
    Logged (tr ++ [.op thread (.addFile node handle) (w.handles.addFile node handle).1])
      ({ w with handles := (w.handles.addFile node handle).2 } : World K X.State) := by
  unfold HandleTable.addFile
  split
  · rename_i next add
    cases checkedAdd_eq_some add
    obtain ⟨log, law⟩ := logged.files.add fresh
    refine move ?_ ?_ log (logged.fileLaw.snoc law) ?_ ?_
    · exact nodup_next logged.numbers logged.below
    · exact below_next logged.below
    · exact (List.append_nil _).symm ▸ logged.dirs
    · exact (List.append_nil _).symm ▸ logged.dirLaw
  · exact logged.pass rfl rfl rfl rfl

theorem addDir {thread : Nat} {node : NodeId} {handle : K.DirHandle} (logged : Logged tr w)
    (fresh : w.handles.dirs.records[w.handles.nextFh]? = none) :
    Logged (tr ++ [.op thread (.addDir node handle) (w.handles.addDir node handle).1])
      ({ w with handles := (w.handles.addDir node handle).2 } : World K X.State) := by
  unfold HandleTable.addDir
  split
  · rename_i next add
    cases checkedAdd_eq_some add
    obtain ⟨log, law⟩ := logged.dirs.add fresh
    refine move ?_ ?_ ?_ ?_ log (logged.dirLaw.snoc law)
    · exact nodup_next logged.numbers logged.below
    · exact below_next logged.below
    · exact (List.append_nil _).symm ▸ logged.files
    · exact (List.append_nil _).symm ▸ logged.fileLaw
  · exact logged.pass rfl rfl rfl rfl

theorem step {T : Holdings} {thread : Nat} {o : RtOp K} {r : o.Res} (logged : Logged tr w)
    (inv : World.Inv False w T) (guard : World.Guard o w) (step : World.step X o w r w') :
    Logged (tr ++ [.op thread o r]) w' := by
  cases o with
  | cx o => exact logged.pass (cxStep_handles step) rfl rfl rfl
  | get id => exact logged.pass (by rw [step.2]) rfl rfl rfl
  | dropRef ref => exact logged.pass (by rw [step]) rfl rfl rfl
  | retainLookup id => exact logged.pass (by rw [step.2]) rfl rfl rfl
  | generationOf id => exact logged.pass (by rw [step.2]) rfl rfl rfl
  | parentOf ino => exact logged.pass (by rw [step.2]) rfl rfl rfl
  | beginForget ino nlookup => exact logged.pass (by rw [step.2]) rfl rfl rfl
  | maybeDrop id => exact logged.pass (by rw [step]) rfl rfl rfl
  | addOpen ino => exact logged.pass (by rw [step.2]) rfl rfl rfl
  | removeOpen ino => exact logged.pass (by rw [step]) rfl rfl rfl
  | hasOpens ino => exact logged.pass (by rw [step.2]) rfl rfl rfl
  | file o =>
      obtain ⟨files, step, rfl⟩ := step
      exact logged.onFile guard step
  | dir o =>
      obtain ⟨dirs, step, rfl⟩ := step
      exact logged.onDir guard step
  | addFile node handle =>
      obtain ⟨rfl, rfl⟩ := step
      exact logged.addFile (inv.files.fresh)
  | addDir node handle =>
      obtain ⟨rfl, rfl⟩ := step
      exact logged.addDir (inv.dirs.fresh)
  | offerDir ino entry => exact logged.pass (by rw [step]) rfl rfl rfl
  | offerPlus ino entry => exact logged.pass (by rw [step]) rfl rfl rfl

end Logged

/-- Nothing is in hand and nothing has been issued when the first request starts. -/
theorem Started.fresh {root : K.Node} {x : X.State} {w₀ : World K X.State}
    (started : Started X root x w₀) : World.Inv False w₀ 0 ∧ w₀.handles = .new := by
  obtain ⟨populate, run⟩ := started
  have inv : World.Inv True (World.new root x) (0 + 0) := new_inv root x
  obtain ⟨T', rfl, inv'⟩ := Safe.exec (G := protocol X True) (Runtime.call_safe populate) inv
    run.of_without
  exact ⟨{ inv' with counted := nofun }, call_handles run.of_without⟩

section Runs

variable {w₀ : World K X.State} {tr : List (Label (rtSig K) (Call K))}
  {c : Pool (runtime X) Exit Reply (Call K)}

/-- Where a release is that took its record out of the table: on its way to the payload, in its
callback with the payload (or past it), or ended in the panic of a node lease count at its
maximum. -/
def Released (i : Nat) (ino fh : Nat) {P : Type} (log : List (HandleEvent P))
    (callback : NodeRef K.Node → P → Callback K Unit) (tr : List (Label (rtSig K) (Call K)))
    (p : Action K Reply) : Prop :=
  (∃ o k, p = .op o k) ∨ .op i (.get ino) none ∈ tr ∨
    ∃ ref handle past, .issued fh ino handle ∈ log ∧ .done i (.take fh) handle ∈ log ∧
      After (releasing (callback ref handle) ref) past p

/-- What a thread has checked and what it was granted under a number belong together. -/
theorem LogOf.granted {P : Type} {log : List (HandleEvent P)} {h : Handles P}
    {e e' : HandleEvent P} {fh : Nat} {node : NodeId} {payload : P} (logged : LogOf log h)
    (law : AllLawful log) (checked : e ∈ log) (node_eq : e.checked = some (fh, node))
    (granted : e' ∈ log)
    (payload_eq : e'.lease = some (fh, payload) ∨ e'.moved = some (fh, payload)) :
    .issued fh node payload ∈ log := by
  obtain ⟨l₁, pre, lawful⟩ := law.mem checked
  obtain ⟨payload', issued⟩ := lawful.checked fh node node_eq
  obtain ⟨l₂, pre', lawful'⟩ := law.mem granted
  obtain ⟨node', issued'⟩ : ∃ node', .issued fh node' payload ∈ l₂ := by
    rcases payload_eq with eq | eq
    · exact (lawful'.lease fh payload eq).1
    · exact (lawful'.moved fh payload eq).1
  obtain ⟨rfl, -⟩ := logged.issued_eq (pre.mem issued) (pre'.mem issued')
  exact pre'.mem issued'

theorem Handles.mem_nodes {P : Type} {h : Handles P} {fh : Nat} {ino : NodeId}
    (found : h.find fh = some ino) : ino ∈ h.nodes := by
  obtain ⟨listed, r, record, rfl⟩ := Handles.find_eq_some found
  refine (Multiset.mem_filterMap _ _).mpr ⟨fh, ?_, by rw [record]; rfl⟩
  simpa using listed

end Runs

/-! ## A run of the plain filesystem -/

theorem plainExec_sound (o : RtOp plainTypes) (w : World plainTypes Unit) (r : o.Res)
    (w' : World plainTypes Unit) (run : World.exec plainExec true o w = some (r, w')) :
    World.step plainMachine o w r w' :=
  World.exec_step (X := plainMachine) (fun e => nomatch e) run

end TypedFuse
