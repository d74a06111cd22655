import TypedFuse.Lib.Within
import TypedFuse.Path.Wiring
import TypedFuse.Runtime.HandleSafety

/-!
# What requests keep when they run alone

A condition on the node table and the filesystem's own state that the callbacks keep is kept by the
requests: what the runtime does by itself takes at most slots without links out of the table
(`own_trims`), so a condition that allows for that (`Lasting`) holds after a request if it held before
it, unless the request panics (`Request.keeping`).

The callbacks that make or take away names are asked for only where their request starts, so that a
filesystem can answer for them there.
-/

namespace TypedFuse

open Std Prog NodeTable

namespace Runtime

variable {K : FsTypes} {X : Machine K.Ext} {O α β σ : Type} {w w' : World K X.State}

/-- The runtime's own invariant. -/
def Sound (X : Machine K.Ext) (w : World K X.State) : Prop := ∃ T, World.Inv (X := X) False w T

theorem Sound.tidy (sound : Sound X w) : w.table.Tidy := by
  obtain ⟨T, inv⟩ := sound
  exact inv.held.tidy

/-- The machine of a request that runs alone. -/
abbrev solo (X : Machine K.Ext) : Machine (rtSig K) :=
  ((runtime X).restrict fun _ _ _ => True).within (Sound X)

/-- What an operation of a callback does when the callback runs alone. -/
def callbackAlone (X : Machine K.Ext) :
    (o : CbOp K O) → World K X.State → o.Res → World K X.State → Prop
  | .cx o, w, r, w' => World.cxStep X o w r w' ∧ Sound X w ∧ Sound X w'
  | .offer _, w, _, w' => w.table.Trims w'.table ∧ w'.ext = w.ext

/-- The machine of callbacks that run alone. -/
abbrev aloneIn (X : Machine K.Ext) (O : Type) : Machine (cbSig K O) :=
  ⟨World K X.State, callbackAlone X⟩

/-- A section of the runtime's own changes no link and nothing of the filesystem. -/
theorem own_trims {o : RtOp K} {r : o.Res} (step : (solo X).step o w r w') (own : ∀ o', o ≠ .cx o') :
    w.table.Trims w'.table ∧ w'.ext = w.ext := by
  have tidy : w.table.Tidy := step.2.1.tidy
  have step : World.step X o w r w' := step.1.1
  cases o with
  | cx o => exact absurd rfl (own o)
  | get id => obtain ⟨-, rfl⟩ := step; exact ⟨trims_get _ _, rfl⟩
  | dropRef ref => cases step; exact ⟨trims_dropRef tidy _, rfl⟩
  | retainLookup id => obtain ⟨-, rfl⟩ := step; exact ⟨trims_retainLookup _ _, rfl⟩
  | beginForget ino n => obtain ⟨-, rfl⟩ := step; exact ⟨trims_beginForget tidy _ _, rfl⟩
  | maybeDrop id =>
      cases step
      rw [maybeDrop_of_tidy tidy]
      exact ⟨.refl _, rfl⟩
  | addOpen ino => obtain ⟨-, rfl⟩ := step; exact ⟨trims_addOpen _ _, rfl⟩
  | removeOpen ino => cases step; exact ⟨trims_removeOpen tidy _, rfl⟩
  | generationOf _ | parentOf _ | hasOpens _ | addFile _ _ | addDir _ _ =>
      obtain ⟨-, rfl⟩ := step
      exact ⟨.refl _, rfl⟩
  | file o | dir o =>
      obtain ⟨_, -, rfl⟩ := step
      exact ⟨.refl _, rfl⟩
  | offerDir _ _ | offerPlus _ _ => cases step; exact ⟨.refl _, rfl⟩

/-! ## Conditions -/

/-- A condition that the runtime's own sections keep. -/
def Lasting (J : World K X.State → Prop) : Prop :=
  ∀ w w', J w → w.table.Trims w'.table → w'.ext = w.ext → J w'

/-- How a program that keeps `J` may end. -/
def Ended (J : World K X.State → Prop) (out : Except Exit α) (w : World K X.State) : Prop :=
  out = .error .panic ∨ J w

/-- Alone, this part of a request keeps `J`, unless it panics. -/
def Keeping (J : World K X.State → Prop) (p : Action K α) : Prop :=
  ∀ w, J w → p.wp (solo X) (Ended J) w

/-- Alone, this callback keeps `J`, unless it panics. -/
def CallKeeping (J : World K X.State → Prop) (cb : ReadCallback K O α) : Prop :=
  ∀ w, J w → cb.wp (aloneIn X O) (Ended J) w

/-- Alone, this callback that cannot fail keeps `J`, unless it panics. -/
def TotalKeeping (J : World K X.State → Prop) (cb : TotalCallback K α) : Prop :=
  ∀ w, J w → cb.wp (aloneIn X Empty) (fun out w' => ∀ a, out = .ok a → J w') w

variable {J : World K X.State → Prop}

namespace Keeping

theorem ret {a : α} : Keeping J (.ret a) := fun _ holds => .inr holds

theorem exit {e : Exit} : Keeping J (.exit e : Action K α) := fun _ holds => .inr holds

theorem own (lasting : Lasting J) {o : RtOp K} {k : o.Res → Action K α} (own : ∀ o', o ≠ .cx o')
    (rest : ∀ r, Keeping J (k r)) : Keeping J (.op o k) := by
  intro w holds r w' step
  obtain ⟨trims, same⟩ := own_trims step own
  exact rest r w' (lasting w w' holds trims same)

theorem bind_at {p : Action K α} {f : α → Action K β} (first : p.wp (solo X) (Ended J) w)
    (rest : ∀ a, Keeping J (f a)) : (p >>= f).wp (solo X) (Ended J) w := by
  refine wp.bind (first.mono fun out w' done => ?_)
  cases out with
  | ok a =>
      rcases done with panic | holds
      · cases panic
      · exact rest a w' holds
  | error e =>
      rcases done with panic | holds
      · cases panic
        exact .inl rfl
      · exact .inr holds

theorem bind {p : Action K α} {f : α → Action K β} (first : Keeping J p)
    (rest : ∀ a, Keeping J (f a)) : Keeping J (p >>= f) :=
  fun w holds => bind_at (first w holds) rest

theorem reply {p : Action K α} {f : α → β} (keeps : Keeping J p) :
    Keeping J (p >>= fun a => .ret (f a)) :=
  keeps.bind fun _ => .ret

/-- A scope that ends with a section of the runtime's own. -/
theorem scope (lasting : Lasting J) {p : Action K α} {o : RtOp K} {unit : o.Res → Unit}
    (own : ∀ o', o ≠ .cx o') (body : Keeping J p) :
    Keeping J (p.andFinally (.op o fun r => .ret (unit r))) := by
  intro w holds
  refine wp.andFinally ((body w holds).mono fun out w₁ done r w₂ step => ⟨rfl, ?_⟩)
  rcases done with panic | holds
  · exact .inl panic
  · obtain ⟨trims, same⟩ := own_trims step own
    exact .inr (lasting w₁ w₂ holds trims same)

end Keeping

/-! ## Callbacks -/

theorem call_alone {ε : Type} {cb : Prog (cbSig K Empty) ε α}
    {Q : Except ε α → World K X.State → Prop} (body : cb.wp (aloneIn X Empty) Q w) :
    (call cb).wp (solo X) Q w := by
  have ops : ∀ (o : CbOp K Empty) (w : World K X.State), (cbOp (ε := ε) o).wp (solo X)
      (fun out w' => ∃ r, out = .ok r ∧ callbackAlone X o w r w') w := by
    intro o w
    cases o with
    | cx o => exact fun r w' step => ⟨r, rfl, step.1.1, step.2⟩
    | offer e => exact nomatch e
  exact wp.interp ops body

theorem CallKeeping.call {cb : Callback K α} (keeps : CallKeeping J cb) : Keeping J (call cb) :=
  fun w holds => call_alone (keeps w holds)

theorem TotalKeeping.call {cb : TotalCallback K α} (keeps : TotalKeeping J cb) :
    Keeping J (callTotal cb) := by
  intro w holds
  refine wp.mapExit ((call_alone (keeps w holds)).mono fun out w' done => ?_)
  cases out with
  | ok a => exact .inr (done a rfl)
  | error e => exact .inl rfl

/-- A sink whose calls are sections of the runtime's own. -/
def IdleSink (X : Machine K.Ext) (sink : O → σ → Action K (Option Bool × σ)) : Prop :=
  ∀ e s w, (sink e s).wp (solo X)
    (fun out w' => ∃ r s', out = .ok (r, s') ∧ w.table.Trims w'.table ∧ w'.ext = w.ext) w

theorem CallKeeping.read {sink : O → σ → Action K (Option Bool × σ)} (quiet : IdleSink X sink)
    {cb : ReadCallback K O α} (keeps : CallKeeping J cb) (s : σ) (holds : J w) :
    (callRead sink cb s).wp (solo X)
      (fun out w' => ∃ r s', out = .ok (r, s') ∧ Ended J r w') w := by
  have ops : ∀ (o : CbOp K O) (s : σ) (w : World K X.State), (readOp sink o s).wp (solo X)
      (fun out w' => ∃ r s', out = .ok (r, s') ∧ callbackAlone X o w r w') w := by
    intro o s w
    cases o with
    | cx o => exact fun r w' step => ⟨r, s, rfl, step.1.1, step.2⟩
    | offer e => exact quiet e s w
  exact wp.interpState ops ((keeps w holds).mono fun out w' done s' => ⟨out, s', rfl, done⟩)

theorem pageSink_trims (ino : Nat) : IdleSink X (pageSink (K := K) ino) :=
  fun _ _ _ _ _ step => ⟨_, _, rfl, own_trims step nofun⟩

theorem plusPageSink_trims (ino : Nat) : IdleSink X (Accounting.add (plusPageSink (K := K) ino)) := by
  have trans : ∀ {w w₁ w₂ : World K X.State}, w.table.Trims w₁.table ∧ w₁.ext = w.ext →
      w₁.table.Trims w₂.table ∧ w₂.ext = w₁.ext → w.table.Trims w₂.table ∧ w₂.ext = w.ext :=
    fun first second => ⟨first.1.trans second.1, second.2.trans first.2⟩
  intro offer s w generation w₁ step
  have quiet₁ := own_trims step nofun
  match generation with
  | none => exact ⟨_, _, rfl, quiet₁⟩
  | some generation =>
      intro took w₂ step
      have quiet₂ := trans quiet₁ (own_trims step nofun)
      match took with
      | false => exact ⟨_, _, rfl, quiet₂⟩
      | true =>
          show Prog.wp _ (if _ then _ else _) _ _
          split
          · intro r w₃ step
            have quiet₃ := trans quiet₂ (own_trims step nofun)
            match r with
            | none => exact ⟨_, _, rfl, quiet₃⟩
            | some none => exact ⟨_, _, rfl, quiet₃⟩
            | some (some _) => exact ⟨_, _, rfl, quiet₃⟩
          · exact ⟨_, _, rfl, quiet₂⟩

/-! ## Scopes -/

section Scopes

variable (lasting : Lasting J)

include lasting

theorem withNode_keeping {ino : Nat} {body : NodeRef K.Node → Action K α}
    (inside : ∀ ref, Keeping J (body ref)) : Keeping J (withNode ino body) := by
  refine .bind (.own lasting nofun fun r => ?_) fun ref => (inside ref).scope lasting nofun
  match r with
  | none => exact .exit
  | some none => exact .exit
  | some (some ref) => exact .ret

theorem files_keeping (o : HandleOp) : Keeping J (files (K := K) o) :=
  .own lasting nofun fun _ => .ret

theorem dirs_keeping (o : HandleOp) : Keeping J (dirs (K := K) o) :=
  .own lasting nofun fun _ => .ret

omit lasting in
theorem handleLease_keeping {R : Type} {sections : (o : HandleOp) → Action K (o.Res R)}
    (quiet : ∀ o, Keeping J (sections o)) (ino fh : Nat) :
    Keeping J (handleLease sections ino fh) := by
  refine (quiet (.find fh)).bind fun node => ?_
  match node with
  | none => exact .exit
  | some node =>
      show Keeping J (if _ then _ else _)
      split
      · exact .exit
      · refine (quiet (.acquire fh)).bind fun lease => ?_
        match lease with
        | none => exact .exit
        | some none => exact .exit
        | some (some payload) => exact .ret

theorem withFile_keeping {ino fh : Nat} {body : K.Handle → Action K α}
    (inside : ∀ h, Keeping J (body h)) : Keeping J (withFile ino fh body) :=
  (handleLease_keeping (files_keeping lasting) ino fh).bind fun h => (inside h).scope lasting nofun

theorem withDir_keeping {ino fh : Nat} {body : K.DirHandle → Action K α}
    (inside : ∀ h, Keeping J (body h)) : Keeping J (withDir ino fh body) :=
  (handleLease_keeping (dirs_keeping lasting) ino fh).bind fun h => (inside h).scope lasting nofun

theorem onNode_keeping {ino : Nat} {cb : K.Node → Callback K α} (keeps : ∀ n, CallKeeping J (cb n)) :
    Keeping J (withNode ino fun n => call (cb n.record.payload)) :=
  withNode_keeping lasting fun ref => (keeps ref.record.payload).call

theorem onFile_keeping {ino fh : Nat} {cb : K.Node → K.Handle → Callback K α}
    (keeps : ∀ n h, CallKeeping J (cb n h)) : Keeping J (onFile ino fh cb) :=
  withNode_keeping lasting fun ref => withFile_keeping lasting fun h =>
    (keeps ref.record.payload h).call

theorem onDir_keeping {ino fh : Nat} {body : K.Node → NodeId → K.DirHandle → Action K α}
    (inside : ∀ n parent h, Keeping J (body n parent h)) : Keeping J (onDir ino fh body) := by
  refine withNode_keeping lasting fun ref => .own lasting nofun fun parent => ?_
  match parent with
  | none => exact .exit
  | some parent => exact withDir_keeping lasting fun h => inside _ parent h

theorem addOpen_keeping (ino : Nat) : Keeping J (addOpen (K := K) ino) := by
  refine .own lasting nofun fun r => ?_
  match r with
  | none => exact .exit
  | some false => exact .exit
  | some true => exact .ret

theorem bindFile_keeping (ino : Nat) (opened : Opened K.Handle) :
    Keeping J (bindFile (K := K) ino opened) := by
  refine (addOpen_keeping lasting ino).bind fun _ => .own lasting nofun fun r => ?_
  match r with
  | none => exact .exit
  | some fh => exact .ret

theorem bindDir_keeping (ino : Nat) (opened : Opened K.DirHandle) :
    Keeping J (bindDir (K := K) ino opened) := by
  refine (addOpen_keeping lasting ino).bind fun _ => .own lasting nofun fun r => ?_
  match r with
  | none => exact .exit
  | some fh => exact .ret

theorem releaseHandle_keeping {R : Type} {sections : (o : HandleOp) → Action K (o.Res R)}
    (quiet : ∀ o, Keeping J (sections o)) {ino fh : Nat} {cb : K.Node → R → Callback K Unit}
    (keeps : ∀ n h, CallKeeping J (cb n h)) : Keeping J (releaseHandle sections ino fh cb) := by
  refine (quiet (.remove ino fh)).bind fun (removed : Bool) => ?_
  cases removed with
  | false => exact .exit
  | true =>
      refine withNode_keeping lasting fun ref => .own lasting nofun fun _ => ?_
      exact (quiet (.close fh)).bind fun _ => (quiet (.take fh)).bind fun payload =>
        (keeps ref.record.payload payload).call

end Scopes

end Runtime

/-! ## Filesystems -/

variable {K : FsTypes} {X : Machine K.Ext}

open TypedFuse.Runtime

/-- The callbacks that do not make or take away names keep `J`. -/
structure NodeFs.Keeping (fs : NodeFs K) (J : World K X.State → Prop) : Prop where
  forget : ∀ n, TotalKeeping J (fs.forget n)
  getattr : ∀ n h caller, CallKeeping J (fs.getattr n h caller)
  entryAttr : ∀ n caller, CallKeeping J (fs.entryAttr n caller)
  setattr : ∀ n h set caller, CallKeeping J (fs.setattr n h set caller)
  wantsFallbackHandle : ∀ n, TotalKeeping J (fs.wantsFallbackHandle n)
  lookup : ∀ parent name caller, CallKeeping J (fs.lookup parent name caller)
  readlink : ∀ n caller, CallKeeping J (fs.readlink n caller)
  «open» : ∀ n flags caller, CallKeeping J (fs.open n flags caller)
  read : ∀ n h offset size caller, CallKeeping J (fs.read n h offset size caller)
  write : ∀ n h data offset caller, CallKeeping J (fs.write n h data offset caller)
  flush : ∀ n h caller, CallKeeping J (fs.flush n h caller)
  release : ∀ n h caller, CallKeeping J (fs.release n h caller)
  fsync : ∀ n h datasync caller, CallKeeping J (fs.fsync n h datasync caller)
  opendir : ∀ n flags caller, CallKeeping J (fs.opendir n flags caller)
  readdir : ∀ n this parent h offset caller,
    CallKeeping J (fs.readdir n this parent h offset caller)
  readdirplus : ∀ n this parent h offset caller,
    CallKeeping J (fs.readdirplus n this parent h offset caller)
  releasedir : ∀ n h caller, CallKeeping J (fs.releasedir n h caller)
  fsyncdir : ∀ n h datasync caller, CallKeeping J (fs.fsyncdir n h datasync caller)
  statfs : ∀ caller, CallKeeping J (fs.statfs caller)
  setxattr : ∀ n name value flags caller, CallKeeping J (fs.setxattr n name value flags caller)
  getxattr : ∀ n name size caller, CallKeeping J (fs.getxattr n name size caller)
  listxattr : ∀ n size caller, CallKeeping J (fs.listxattr n size caller)
  removexattr : ∀ n name caller, CallKeeping J (fs.removexattr n name caller)
  access : ∀ n mask caller, CallKeeping J (fs.access n mask caller)
  fallocate : ∀ n h mode offset length caller,
    CallKeeping J (fs.fallocate n h mode offset length caller)
  lseek : ∀ n h offset whence caller, CallKeeping J (fs.lseek n h offset whence caller)
  getlk : ∀ n h owner lock caller, CallKeeping J (fs.getlk n h owner lock caller)
  setlk : ∀ n h owner lock sleep caller, CallKeeping J (fs.setlk n h owner lock sleep caller)
  flock : ∀ n h operation caller, CallKeeping J (fs.flock n h operation caller)
  copyFileRange : ∀ ino offIn inoOut offOut len flags caller,
    CallKeeping J (fs.copyFileRange ino offIn inoOut offOut len flags caller)

/-- What is asked of the callback of a request that makes or takes away a name. -/
def Request.Naming (fs : NodeFs K) (Q : {α : Type} → Callback K α → Prop) : Request → Prop
  | .mknod parent name mode rdev umask caller => Q (fs.mknod parent name mode rdev umask caller)
  | .mkdir parent name mode umask caller => Q (fs.mkdir parent name mode umask caller)
  | .symlink parent name target caller => Q (fs.symlink parent name target caller)
  | .link ino newparent newname caller => Q (fs.link ino newparent newname caller)
  | .unlink parent name caller => Q (fs.unlink parent name caller)
  | .rmdir parent name caller => Q (fs.rmdir parent name caller)
  | .rename parent name newparent newname flags caller =>
    Q (fs.rename parent name newparent newname flags caller)
  | .create parent name mode umask flags caller => Q (fs.create parent name mode umask flags caller)
  | _ => True

variable {fs : NodeFs K} {J : World K X.State → Prop}

namespace NodeFs.Keeping

variable (keeps : fs.Keeping J) (lasting : Lasting J)

include keeps lasting

theorem entryFor (id : NodeId) (caller : Caller) : Runtime.Keeping J (entryFor fs id caller) := by
  refine withNode_keeping lasting fun ref =>
    (keeps.entryAttr _ caller).call.bind fun attr => .own lasting nofun fun r => ?_
  match r with
  | none => exact .exit
  | some none => exact .exit
  | some (some generation) => exact .ret

theorem forgets (ino nlookup : Nat) : Runtime.Keeping J (Runtime.forget fs ino nlookup) := by
  refine .own lasting nofun fun r => ?_
  match r with
  | none => exact .exit
  | some none => exact .ret
  | some (some (some ref)) => exact (keeps.forget ref.record.payload).call.scope lasting nofun
  | some (some none) => exact .own lasting nofun fun _ => .ret

theorem forgetEach (ids : List NodeId) : Runtime.Keeping J (forgetEach fs ids) := by
  induction ids with
  | nil => exact .ret
  | cons id rest ih => exact (keeps.forgets lasting id 1).bind fun _ => ih

theorem withOptionalFile {α : Type} {ino : Nat} {n : K.Node} {fh : Option Nat}
    {body : Option K.Handle → Action K α} (inside : ∀ h, Runtime.Keeping J (body h)) :
    Runtime.Keeping J (withOptionalFile fs ino n fh body) := by
  refine .bind ?_ fun lease => ?_
  · match fh with
    | some fh => exact (handleLease_keeping (files_keeping lasting) ino fh).bind fun _ => .ret
    | none =>
        refine .own lasting nofun fun (opened : Bool) => ?_
        cases opened with
        | false => exact .ret
        | true =>
            refine (keeps.wantsFallbackHandle n).call.bind fun wants => ?_
            cases wants with
            | false => exact .ret
            | true =>
                refine .own lasting nofun fun r => ?_
                match r with
                | none => exact .exit
                | some lease => exact .ret
  · match lease with
    | none => exact inside none
    | some (fh, h) => exact (inside (some h)).scope lasting nofun

theorem readdirs (ino fh offset : Nat) (caller : Caller) :
    Runtime.Keeping J (Runtime.readdir fs ino fh caller (pageSink ino) [] offset) := by
  refine onDir_keeping lasting fun n parent h w holds => wp.bind ?_
  have read := (keeps.readdir n ino parent h offset caller).read (pageSink_trims ino) [] holds
  refine read.mono fun out w' done => ?_
  obtain ⟨r, s, rfl, done⟩ := done
  rcases done with panic | holds
  · rw [panic]
    exact .inl rfl
  · cases r with
    | ok _ => exact .inr holds
    | error e => exact .inr holds

theorem readdirpluses (ino fh offset : Nat) (caller : Caller) :
    Runtime.Keeping J (Runtime.readdirplus fs ino fh caller (plusPageSink ino) [] offset) := by
  refine onDir_keeping lasting fun n parent h w holds => wp.bind ?_
  have read := (keeps.readdirplus n ino parent h offset caller).read (plusPageSink_trims ino)
    ⟨[], []⟩ holds
  refine read.mono fun out w' done => ?_
  obtain ⟨r, s, rfl, done⟩ := done
  match r, done with
  | .error .panic, _ => exact .inl rfl
  | .ok _, .inr holds => exact .inr holds
  | .error (.errno e), .inr holds =>
      exact (keeps.forgetEach lasting s.accepted).bind (fun _ => .exit) w' holds

end NodeFs.Keeping

/-- A request that runs alone keeps `J`, unless it panics. -/
theorem Request.keeping (keeps : fs.Keeping J) (lasting : Lasting J) {w : World K X.State}
    (holds : J w) (q : Request) (naming : q.Naming fs fun cb => cb.wp (aloneIn X Empty) (Ended J) w) :
    (q.run fs).wp (solo X) (Ended J) w := by
  have made : ∀ {cb : Callback K NodeId} {caller : Caller}, cb.wp (aloneIn X Empty) (Ended J) w →
      ((call cb >>= fun id => entryFor fs id caller) >>= fun e => .ret (Reply.entry e)).wp (solo X)
        (Ended J) w := fun cb =>
    Keeping.bind_at (Keeping.bind_at (call_alone cb) fun id => keeps.entryFor lasting id _)
      fun _ => .ret
  have taken : ∀ {cb : Callback K Unit}, cb.wp (aloneIn X Empty) (Ended J) w →
      (call cb >>= fun _ => .ret Reply.unit).wp (solo X) (Ended J) w := fun cb =>
    Keeping.bind_at (call_alone cb) fun _ => .ret
  cases q with
  | mknod parent name mode rdev umask caller => exact made naming
  | mkdir parent name mode umask caller => exact made naming
  | symlink parent name target caller => exact made naming
  | link ino newparent newname caller => exact made naming
  | unlink parent name caller => exact taken naming
  | rmdir parent name caller => exact taken naming
  | rename parent name newparent newname flags caller => exact taken naming
  | create parent name mode umask flags caller =>
      refine Keeping.bind_at (Keeping.bind_at (call_alone naming) fun opened => ?_) fun _ => .ret
      exact (keeps.entryFor lasting opened.1 caller).bind fun entry =>
        (bindFile_keeping lasting opened.1 opened.2).reply
  | forget ino n => exact (keeps.forgets lasting ino n).reply w holds
  | statfs caller => exact (keeps.statfs caller).call.reply w holds
  | getattr ino fh caller =>
      exact (withNode_keeping lasting fun ref => keeps.withOptionalFile lasting fun h =>
        (keeps.getattr ref.record.payload h caller).call).reply w holds
  | setattr ino fh set caller =>
      exact (withNode_keeping lasting fun ref => keeps.withOptionalFile lasting fun h =>
        (keeps.setattr ref.record.payload h set caller).call).reply w holds
  | readlink ino caller =>
      exact (onNode_keeping lasting fun n => keeps.readlink n caller).reply w holds
  | access ino mask caller =>
      exact (onNode_keeping lasting fun n => keeps.access n mask caller).reply w holds
  | setxattr ino name value flags caller =>
      exact (onNode_keeping lasting fun n => keeps.setxattr n name value flags caller).reply w holds
  | getxattr ino name size caller =>
      exact (onNode_keeping lasting fun n => keeps.getxattr n name size caller).reply w holds
  | listxattr ino size caller =>
      exact (onNode_keeping lasting fun n => keeps.listxattr n size caller).reply w holds
  | removexattr ino name caller =>
      exact (onNode_keeping lasting fun n => keeps.removexattr n name caller).reply w holds
  | «open» ino flags caller =>
      exact (withNode_keeping lasting fun ref =>
        (keeps.open ref.record.payload flags caller).call.bind
          (bindFile_keeping lasting ino)).reply w holds
  | read ino fh offset size caller =>
      exact (onFile_keeping lasting fun n h => keeps.read n h offset size caller).reply w holds
  | write ino fh data offset caller =>
      exact (onFile_keeping lasting fun n h => keeps.write n h data offset caller).reply w holds
  | flush ino fh caller =>
      exact (onFile_keeping lasting fun n h => keeps.flush n h caller).reply w holds
  | fsync ino fh datasync caller =>
      exact (onFile_keeping lasting fun n h => keeps.fsync n h datasync caller).reply w holds
  | fallocate ino fh mode offset length caller =>
      exact (onFile_keeping lasting fun n h =>
        keeps.fallocate n h mode offset length caller).reply w holds
  | lseek ino fh offset whence caller =>
      exact (onFile_keeping lasting fun n h => keeps.lseek n h offset whence caller).reply w holds
  | getlk ino fh owner requested caller =>
      exact (onFile_keeping lasting fun n h => keeps.getlk n h owner requested caller).reply w holds
  | setlk ino fh owner lock sleep caller =>
      exact (onFile_keeping lasting fun n h => keeps.setlk n h owner lock sleep caller).reply w holds
  | flock ino fh operation caller =>
      exact (onFile_keeping lasting fun n h => keeps.flock n h operation caller).reply w holds
  | release ino fh caller =>
      exact (releaseHandle_keeping lasting (files_keeping lasting) fun n h =>
        keeps.release n h caller).reply w holds
  | opendir ino flags caller =>
      exact (withNode_keeping lasting fun ref =>
        (keeps.opendir ref.record.payload flags caller).call.bind
          (bindDir_keeping lasting ino)).reply w holds
  | readdir ino fh offset caller => exact (keeps.readdirs lasting ino fh offset caller).reply w holds
  | readdirplus ino fh offset caller =>
      exact (keeps.readdirpluses lasting ino fh offset caller).bind (fun _ => .ret) w holds
  | fsyncdir ino fh datasync caller =>
      exact (withNode_keeping lasting fun ref => withDir_keeping lasting fun h =>
        (keeps.fsyncdir ref.record.payload h datasync caller).call).reply w holds
  | releasedir ino fh caller =>
      exact (releaseHandle_keeping lasting (dirs_keeping lasting) fun n h =>
        keeps.releasedir n h caller).reply w holds
  | lookup parent name caller =>
      refine ((keeps.lookup parent name caller).call.bind fun found => ?_).reply w holds
      match found with
      | none => exact .ret
      | some id => exact (keeps.entryFor lasting id caller).reply
  | copyFileRange ino offIn inoOut offOut len flags caller =>
      exact (keeps.copyFileRange ino offIn inoOut offOut len flags caller).call.reply w holds

/-- A request that finds the runtime's invariant keeps it at every step. -/
theorem Runtime.Sound.request {w w' : World K X.State} (sound : Sound X w) {q : Request}
    {out : Except Exit Reply} (run : (q.run fs).Exec (runtime X) w out w') :
    (q.run fs).Exec (solo X) w out w' ∧ Sound X w' := by
  obtain ⟨T, inv⟩ := sound
  have safe := Request.safe_unlooked (X := X) fs q
  rw [← zero_add T] at inv
  have inside := Exec.within (G := protocol X False) safe inv run.unrestricted
  obtain ⟨T', -, inv'⟩ := Safe.exec (G := protocol X False) safe inv run
  exact ⟨inside, _, inv'⟩

end TypedFuse
