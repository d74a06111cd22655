import TypedFuse.Path.Upkeep

/-!
# Requests that run alone

The runtime's own part of a request is quiet, so a request keeps a condition on table and names if
the callbacks it makes do.  `Request.keeps` says so for the requests that change no name on purpose,
and `Request.changes` for `unlink`, `rmdir`, `rename` and `link`, whose callback may lead from one
condition to another.
-/

namespace TypedFuse

open Std Prog NodeTable

variable {P : PathTypes} {F : Backing P} {O α β σ : Type}

/-- The machine of a request that runs alone, with the steps that are allowed. -/
abbrev byItself (ok : Allowed F) : Machine (rtSig (pathTypes P)) :=
  ((runtime (adapter F)).restrict ok).within Sane

/-- Everything the runtime does itself is quiet. -/
theorem rt_quiet {ok : Allowed F} {o : RtOp (pathTypes P)} {r : o.Res} {w w' : PathWorld F}
    (step : (byItself ok).step o w r w') (own : ∀ o', o ≠ .cx o') : Quiet w w' := by
  have tidy : w.table.Tidy := step.2.1.tidy
  have step : World.step (adapter F) o w r w' := step.1.1
  cases o with
  | cx o => exact absurd rfl (own o)
  | get id => obtain ⟨-, rfl⟩ := step; exact ⟨rfl, trims_get _ _⟩
  | dropRef ref => cases step; exact ⟨rfl, trims_dropRef tidy _⟩
  | retainLookup id => obtain ⟨-, rfl⟩ := step; exact ⟨rfl, trims_retainLookup _ _⟩
  | beginForget ino n => obtain ⟨-, rfl⟩ := step; exact ⟨rfl, trims_beginForget tidy _ _⟩
  | maybeDrop id =>
      cases step
      rw [maybeDrop_of_tidy tidy]
      exact .refl w
  | addOpen ino => obtain ⟨-, rfl⟩ := step; exact ⟨rfl, trims_addOpen _ _⟩
  | removeOpen ino => cases step; exact ⟨rfl, trims_removeOpen tidy _⟩
  | generationOf _ | parentOf _ | hasOpens _ =>
      obtain ⟨-, rfl⟩ := step
      exact .refl _
  | file o | dir o =>
      obtain ⟨_, -, rfl⟩ := step
      exact ⟨rfl, .refl _⟩
  | addFile _ _ | addDir _ _ =>
      obtain ⟨-, rfl⟩ := step
      exact ⟨rfl, .refl _⟩
  | offerDir _ _ | offerPlus _ _ => cases step; exact .refl _

/-- The recursion that does not end, if it is to be kept away from. -/
def Recurses (strict : Prop) : RtOp (pathTypes P) → Prop
  | .cx (.ext .diverge) => strict
  | _ => False

theorem not_recurses {strict : Prop} {o : RtOp (pathTypes P)} (own : ∀ o', o ≠ .cx o') :
    ¬Recurses strict o := by
  cases o with
  | cx o => exact absurd rfl (own o)
  | _ => exact not_false

theorem Recurses.mono {strict strict' : Prop} (more : strict → strict') {o : RtOp (pathTypes P)}
    (recurses : Recurses strict o) : Recurses strict' o := by
  unfold Recurses at recurses ⊢
  split at recurses
  · exact more recurses
  · exact recurses.elim

/-- A request recurses only as its callback does. -/
theorem not_recurses_cx {strict : Prop} {o : CxOp (pathTypes P)}
    (ends : ¬Diverges (O := O) strict (.cx o)) : ¬Recurses strict (.cx o) := by
  cases o with
  | ext e =>
      cases e with
      | diverge => exact ends
      | _ => exact not_false
  | _ => exact not_false

/-- Run alone, the part of a request keeps the condition, and no `path_for` of it goes on for ever
if the condition says so. -/
def Stays (ok : Allowed F) (J : Sight P) (p : Action (pathTypes P) α) : Prop :=
  ∀ w, Holds J w → p.sure (byItself ok) (Recurses (Ending J)) (fun _ w' => Holds J w') w

section Glue

variable {ok : Allowed F} {J : Sight P} {A : Spot} {w : PathWorld F}

theorem Stays.ret {a : α} : Stays ok J (.ret a) := fun _ holds => holds

theorem Stays.exit {e : Exit} : Stays ok J (.exit e : Action (pathTypes P) α) := fun _ holds => holds

theorem Stays.own (stable : Stable J) {o : RtOp (pathTypes P)}
    {k : o.Res → Action (pathTypes P) α} (own : ∀ o', o ≠ .cx o') (rest : ∀ r, Stays ok J (k r)) :
    Stays ok J (.op o k) :=
  fun _ holds => ⟨not_recurses own, fun r w' step =>
    rest r w' (stable.quiet holds (rt_quiet step own))⟩

theorem Stays.bind {p : Action (pathTypes P) α} {f : α → Action (pathTypes P) β}
    (first : Stays ok J p) (rest : ∀ a, Stays ok J (f a)) : Stays ok J (p >>= f) :=
  fun w holds => sure.bind ((first w holds).mono fun out w' holds' => by
    cases out with
    | ok a => exact rest a w' holds'
    | error e => exact holds')

/-- A scope that ends with an operation of the runtime's own. -/
theorem scope_wp {strict : Prop} {p : Action (pathTypes P) α} {o : RtOp (pathTypes P)}
    {unit : o.Res → Unit} {Q : Except Exit α → PathWorld F → Prop} (closed : Closed Q)
    (own : ∀ o', o ≠ .cx o') (body : p.sure (byItself ok) (Recurses strict) Q w) :
    (p.andFinally (.op o fun r => .ret (unit r))).sure (byItself ok) (Recurses strict) Q w :=
  sure.andFinally (body.mono fun out w₁ done => ⟨not_recurses own, fun _ w₂ step =>
    ⟨rfl, closed out w₁ w₂ done (rt_quiet step own)⟩⟩)

theorem Stays.scope (stable : Stable J) {p : Action (pathTypes P) α} {o : RtOp (pathTypes P)}
    {unit : o.Res → Unit} (own : ∀ o', o ≠ .cx o') (body : Stays ok J p) :
    Stays ok J (p.andFinally (.op o fun r => .ret (unit r))) :=
  fun w holds => scope_wp stable.closed own (body w holds)

/-- A callback that runs as part of a request. -/
theorem call_wp {ε : Type} {strict : Prop} {cb : Prog (cbSig (pathTypes P) Empty) ε α}
    {Q : Except ε α → PathWorld F → Prop}
    (body : cb.sure (callbacks ok Empty) (Diverges strict) Q w) :
    (Runtime.call cb).sure (byItself ok) (Recurses strict) Q w := by
  have ops : ∀ (o : CbOp (pathTypes P) Empty) (w : PathWorld F), ¬Diverges strict o →
      (Runtime.cbOp (ε := ε) o).sure (byItself ok) (Recurses strict) (fun out w' =>
        ∃ r, out = .ok r ∧ callbackStep ok o w r w') w := fun o w ends => by
    cases o with
    | cx o => exact ⟨not_recurses_cx ends, fun r w' step => ⟨r, rfl, step⟩⟩
    | offer e => exact nomatch e
  exact sure.interp ops body

theorem KeepsTo.stays {cb : Callback (pathTypes P) α} (keeps : KeepsTo ok J cb) :
    Stays ok J (Runtime.call cb) :=
  fun w holds => call_wp (keeps w holds)

theorem KeepsTo.staysTotal {cb : TotalCallback (pathTypes P) α} (keeps : KeepsTo ok J cb) :
    Stays ok J (Runtime.callTotal cb) :=
  fun w holds => sure.mapExit (call_wp (keeps w holds))

/-- The node that a request leases is the one its number denotes. -/
theorem withNode_keyed {ino : Nat} {body : NodeRef (PathNode P) → Action (pathTypes P) α}
    (stable : Stable J)
    (inside : ∀ (ref : NodeRef (PathNode P)) w', Holds J w' → (∃ slot : Slot (PathNode P),
      w'.table.map[ino]? = some slot ∧ slot.record = ref.record) →
      (body ref).sure (byItself ok) (Recurses (Ending J)) (fun _ w' => Holds J w') w') :
    Stays ok J (Runtime.withNode ino body) := by
  intro w holds
  refine ⟨not_false, fun r w₁ step => ?_⟩
  have holds₁ := stable.quiet holds (rt_quiet step nofun)
  obtain ⟨rfl, rfl⟩ : r = (w.table.get ino).1 ∧ w₁ = { w with table := (w.table.get ino).2 } :=
    step.1.1
  rcases get_cases w.table ino with ⟨-, eq⟩ | eq | ⟨slot, live, eq⟩
  · rw [eq] at holds₁ ⊢
    exact holds₁
  · rw [eq] at holds₁ ⊢
    exact holds₁
  · rw [eq] at holds₁ ⊢
    refine scope_wp stable.closed nofun (inside _ _ holds₁ ?_)
    have held : ({ slot with leases := slot.leases + 1 } : Slot (PathNode P)).droppable = false :=
      Slot.held_iff.mpr (.inr (.inr (.inr (Nat.succ_ne_zero _))))
    exact ⟨{ slot with leases := slot.leases + 1 }, by rw [settle_map, if_pos rfl, held]; rfl, rfl⟩

theorem withNode_stays {ino : Nat} {body : NodeRef (PathNode P) → Action (pathTypes P) α}
    (stable : Stable J) (inside : ∀ ref, Stays ok J (body ref)) :
    Stays ok J (Runtime.withNode ino body) :=
  withNode_keyed stable fun ref w' holds _ => inside ref w' holds

/-! ## Handles and counts -/

theorem handleLease_stays {R : Type}
    {sections : (o : HandleOp) → Action (pathTypes P) (o.Res R)}
    (quiet : ∀ o, Stays ok J (sections o)) (ino fh : Nat) :
    Stays ok J (Runtime.handleLease sections ino fh) := by
  refine (quiet (.find fh)).bind fun node => ?_
  match node with
  | none => exact .exit
  | some node =>
      show Stays ok J (if _ then _ else _)
      split
      · exact .exit
      · refine (quiet (.acquire fh)).bind fun lease => ?_
        match lease with
        | none => exact .exit
        | some none => exact .exit
        | some (some payload) => exact .ret

variable (stable : Stable J)

include stable

theorem files_stays (o : HandleOp) : Stays ok J (Runtime.files (K := pathTypes P) o) :=
  .own stable nofun fun _ => .ret

theorem dirs_stays (o : HandleOp) : Stays ok J (Runtime.dirs (K := pathTypes P) o) :=
  .own stable nofun fun _ => .ret

theorem withFile_stays {ino fh : Nat} {body : P.Handle → Action (pathTypes P) α}
    (inside : ∀ h, Stays ok J (body h)) : Stays ok J (Runtime.withFile ino fh body) :=
  (handleLease_stays (files_stays stable) ino fh).bind fun h =>
    (inside h).scope stable nofun

theorem withDir_stays {ino fh : Nat} {body : PathDirHandle P → Action (pathTypes P) α}
    (inside : ∀ h, Stays ok J (body h)) : Stays ok J (Runtime.withDir ino fh body) :=
  (handleLease_stays (dirs_stays stable) ino fh).bind fun h =>
    (inside h).scope stable nofun

theorem onFile_stays {ino fh : Nat} {callback : PathNode P → P.Handle → Callback (pathTypes P) α}
    (keeps : ∀ n h, KeepsTo ok J (callback n h)) :
    Stays ok J (Runtime.onFile (K := pathTypes P) ino fh callback) :=
  withNode_stays stable fun ref => withFile_stays stable fun h => (keeps ref.record.payload h).stays

theorem bindFile_stays (ino : Nat) (opened : Opened P.Handle) :
    Stays ok J (Runtime.bindFile (K := pathTypes P) ino opened) := by
  refine .bind (.own stable nofun fun r => ?_) fun _ => .own stable nofun fun r => ?_
  · match r with
    | none => exact .exit
    | some false => exact .exit
    | some true => exact .ret
  · match r with
    | none => exact .exit
    | some fh => exact .ret

theorem bindDir_stays (ino : Nat) (opened : Opened (PathDirHandle P)) :
    Stays ok J (Runtime.bindDir (K := pathTypes P) ino opened) := by
  refine .bind (.own stable nofun fun r => ?_) fun _ => .own stable nofun fun r => ?_
  · match r with
    | none => exact .exit
    | some false => exact .exit
    | some true => exact .ret
  · match r with
    | none => exact .exit
    | some fh => exact .ret

theorem releaseHandle_stays {R : Type} {sections : (o : HandleOp) → Action (pathTypes P) (o.Res R)}
    (quiet : ∀ o, Stays ok J (sections o)) {ino fh : Nat}
    {callback : PathNode P → R → Callback (pathTypes P) Unit}
    (keeps : ∀ n h, KeepsTo ok J (callback n h)) :
    Stays ok J (Runtime.releaseHandle (K := pathTypes P) sections ino fh callback) := by
  refine (quiet (.remove ino fh)).bind fun (removed : Bool) => ?_
  cases removed with
  | false => exact .exit
  | true =>
      refine withNode_stays stable fun ref => .own stable nofun fun _ => ?_
      exact (quiet (.close fh)).bind fun _ => (quiet (.take fh)).bind fun payload =>
        (keeps ref.record.payload payload).stays

theorem getattr_keeps (node : PathNode P) (handle : Option P.Handle) (caller : Caller) :
    KeepsTo ok J (PathNodeFs.getattr (O := O) node handle caller) :=
  onNode_keeps stable node fun ref => inner_keeps stable (.getattr ref handle caller)

theorem entryAttr_keeps (node : PathNode P) (caller : Caller) :
    KeepsTo ok J ((pathNodeFs P).entryAttr node caller) := by
  intro w holds
  refine ext_wp rfl fun r w₁ quiet _ => ?_
  have holds₁ := stable.quiet holds quiet
  match r with
  | some attr => exact holds₁
  | none => exact getattr_keeps stable node none caller w₁ holds₁

theorem entryFor_stays (id : NodeId) (caller : Caller) :
    Stays ok J (Runtime.entryFor (pathNodeFs P) id caller) := by
  refine withNode_stays stable fun ref =>
    (entryAttr_keeps stable _ caller).stays.bind fun attr => .own stable nofun fun r => ?_
  match r with
  | none => exact .exit
  | some none => exact .exit
  | some (some generation) => exact .ret

theorem forget_stays (ino nlookup : Nat) :
    Stays ok J (Runtime.forget (pathNodeFs P) ino nlookup) := by
  have keeps : ∀ node, KeepsTo ok J ((pathNodeFs P).forget node) := fun node => by
    show KeepsTo ok J (PathNodeFs.forget node)
    refine onNode_keeps stable node fun ref w holds => ?_
    refine ext_wp (e := .innerForget ref) rfl fun r w₁ quiet _ => ?_
    match r with
    | none => exact stable.quiet holds quiet
    | some _ => exact stable.quiet holds quiet
  refine .own stable nofun fun r => ?_
  match r with
  | none => exact .exit
  | some none => exact .ret
  | some (some (some ref)) => exact (keeps ref.record.payload).staysTotal.scope stable nofun
  | some (some none) => exact .own stable nofun fun _ => .ret

theorem forgetEach_stays (ids : List NodeId) :
    Stays ok J (Runtime.forgetEach (pathNodeFs P) ids) := by
  induction ids with
  | nil => exact .ret
  | cons id rest ih => exact (forget_stays stable id 1).bind fun _ => ih

theorem wants_keeps (node : PathNode P) :
    KeepsTo ok J ((pathNodeFs P).wantsFallbackHandle node) :=
  fun _ holds => sure.bind (nodePath_wp (·.holds holds) fun _ _ quiet _ =>
    stable.quiet holds quiet)

theorem withOptionalFile_stays {ino : Nat} {n : PathNode P} {fh : Option Nat}
    {body : Option P.Handle → Action (pathTypes P) α} (inside : ∀ h, Stays ok J (body h)) :
    Stays ok J (Runtime.withOptionalFile (pathNodeFs P) ino n fh body) := by
  refine .bind ?_ fun lease => ?_
  · match fh with
    | some fh => exact (handleLease_stays (files_stays stable) ino fh).bind fun _ => .ret
    | none =>
        refine .own stable nofun fun (opened : Bool) => ?_
        cases opened with
        | false => exact .ret
        | true =>
            refine (wants_keeps stable n).staysTotal.bind fun wants => ?_
            cases wants with
            | false => exact .ret
            | true =>
                refine .own stable nofun fun r => ?_
                match r with
                | none => exact .exit
                | some lease => exact .ret
  · match lease with
    | none => exact inside none
    | some (fh, h) => exact (inside (some h)).scope stable nofun

omit stable

/-! ## Directory reads -/

/-- A sink whose calls are quiet. -/
def QuietSink (ok : Allowed F) (strict : Prop) {O : Type}
    (sink : O → σ → Action (pathTypes P) (Option Bool × σ)) : Prop :=
  ∀ e s w, (sink e s).sure (byItself ok) (Recurses strict) (fun out w' => ∃ r s', out = .ok (r, s') ∧ Quiet w w') w

theorem callRead_wp {sink : O → σ → Action (pathTypes P) (Option Bool × σ)}
    (quiet : QuietSink ok (Ending J) sink)
    {cb : ReadCallback (pathTypes P) O α} {s : σ}
    (body : cb.sure (callbacks ok O) (Diverges (Ending J)) (fun _ w' => Holds J w') w) :
    (Runtime.callRead sink cb s).sure (byItself ok) (Recurses (Ending J)) (fun _ w' => Holds J w') w := by
  have ops : ∀ (o : CbOp (pathTypes P) O) (s : σ) (w : PathWorld F), ¬Diverges (Ending J) o →
      (Runtime.readOp sink o s).sure (byItself ok) (Recurses (Ending J)) (fun out w' =>
        ∃ r s', out = .ok (r, s') ∧ callbackStep ok o w r w') w := fun o s w ends => by
    cases o with
    | cx o => exact ⟨not_recurses_cx ends, fun r w' step => ⟨r, s, rfl, step⟩⟩
    | offer e => exact quiet e s w
  exact sure.interpState ops (body.mono fun _ _ holds _ => holds)

theorem pageSink_quiet {strict : Prop} (ino : Nat) :
    QuietSink ok strict (pageSink (K := pathTypes P) ino) :=
  fun _ _ _ => ⟨not_false, fun _ _ step => ⟨_, _, rfl, rt_quiet step nofun⟩⟩

theorem plusPageSink_quiet {strict : Prop} (ino : Nat) :
    QuietSink ok strict (plusPageSink (K := pathTypes P) ino) :=
  fun _ _ _ => ⟨not_false, fun _ _ step => ⟨_, _, rfl, rt_quiet step nofun⟩⟩

theorem accounting_quiet {strict : Prop}
    {sink : PlusEntry → σ → Action (pathTypes P) (Option Bool × σ)}
    (quiet : QuietSink ok strict sink) : QuietSink ok strict (Runtime.Accounting.add sink) := by
  intro offer s w
  refine ⟨not_false, fun generation w₁ step => ?_⟩
  have quiet₁ := rt_quiet step nofun
  match generation with
  | none => exact ⟨_, _, rfl, quiet₁⟩
  | some generation =>
      refine sure.bind ((quiet _ s.inner w₁).mono fun out w₂ done => ?_)
      obtain ⟨took, inner, rfl, quiet₂⟩ := done
      have quiet₂ := quiet₁.trans quiet₂
      match took with
      | none => exact ⟨_, _, rfl, quiet₂⟩
      | some false => exact ⟨_, _, rfl, quiet₂⟩
      | some true =>
          show Prog.sure _ _ (if _ then _ else _) _ _
          split
          · refine ⟨not_false, fun r w₃ step => ?_⟩
            have quiet₃ := quiet₂.trans (rt_quiet step nofun)
            match r with
            | none => exact ⟨_, _, rfl, quiet₃⟩
            | some none => exact ⟨_, _, rfl, quiet₃⟩
            | some (some _) => exact ⟨_, _, rfl, quiet₃⟩
          · exact ⟨_, _, rfl, quiet₂⟩

/-- The scope of a directory read, in which the number denotes the node that is read. -/
theorem onDir_stays (grows : Grows ok J A) {ino fh : Nat}
    {body : PathNode P → NodeId → PathDirHandle P → Action (pathTypes P) α}
    (inside : ∀ n parent h w, Holds J w → w.ext.ns.keys[n.key]? = some ino →
      (body n parent h).sure (byItself ok) (Recurses (Ending J)) (fun _ w' => Holds J w') w) :
    Stays ok J (Runtime.onDir (K := pathTypes P) ino fh body) := by
  refine withNode_keyed grows.stable fun ref w holds found => ?_
  obtain ⟨slot, live, record⟩ := found
  have keyed := grows.keyed holds live
  rw [record] at keyed
  refine ⟨not_false, fun parent w₁ step => ?_⟩
  have quiet₁ := rt_quiet step nofun
  have holds₁ := grows.stable.quiet holds quiet₁
  match parent with
  | none => exact holds₁
  | some parent =>
      -- the names stay while the handle is found, so the key still denotes the node
      have stable : Stable (P := P) fun t ns => J t ns ∧ ns = w.ext.ns :=
        fun _ _ _ holds trims => ⟨grows.stable _ _ _ holds.1 trims, holds.2⟩
      have lease : Stays ok _ (Runtime.dir (K := pathTypes P) ino fh) :=
        handleLease_stays (dirs_stays stable) ino fh
      have less : Ending J → Ending fun t ns => J t ns ∧ ns = w.ext.ns :=
        fun ends t ns holds => ends t ns holds.1
      have lease := (lease w₁ ⟨holds₁, quiet₁.names⟩).weaken fun _ => Recurses.mono less
      refine sure.bind (lease.mono fun out w₂ holds₂ => ?_)
      cases out with
      | error e => exact holds₂.1
      | ok h =>
          refine scope_wp grows.stable.closed nofun (inside _ _ h w₂ holds₂.1 ?_)
          rw [show w₂.ext.ns = w.ext.ns from holds₂.2]
          exact keyed

/-! ## The requests -/

theorem readdir_stays (grows : Grows ok J A) (ino fh offset : Nat) (caller : Caller) :
    Stays ok J (Runtime.readdir (pathNodeFs P) ino fh caller (pageSink ino) [] offset) := by
  refine onDir_stays grows fun n parent h w holds keyed => ?_
  have read : ((pathNodeFs P).readdir n ino parent h offset caller).sure (callbacks ok DirOffer) (Diverges (Ending J))
      (fun _ w' => Holds J w') w :=
    readDirectory_wp grows holds keyed h offset false caller fun e id next =>
      some (⟨e.name, id, e.kind, next⟩ : DirOffer)
  have quiet : QuietSink ok (Ending J) _ := pageSink_quiet ino
  refine sure.bind ((callRead_wp quiet read).mono fun out w₁ holds₁ => ?_)
  match out with
  | .error e => exact holds₁
  | .ok (.ok _, s) => exact holds₁
  | .ok (.error e, s) => exact holds₁

theorem readdirplus_stays (grows : Grows ok J A) (ino fh offset : Nat) (caller : Caller) :
    Stays ok J (Runtime.readdirplus (pathNodeFs P) ino fh caller (plusPageSink ino) [] offset) := by
  refine onDir_stays grows fun n parent h w holds keyed => ?_
  have read : ((pathNodeFs P).readdirplus n ino parent h offset caller).sure (callbacks ok PlusOffer) (Diverges (Ending J))
      (fun _ w' => Holds J w') w :=
    readDirectory_wp grows holds keyed h offset true caller fun e id next =>
      e.attr.map fun attr => (⟨e.name, id, attr, next⟩ : PlusOffer)
  have quiet : QuietSink ok (Ending J) _ := accounting_quiet (plusPageSink_quiet ino)
  refine sure.bind ((callRead_wp quiet read).mono fun out w₁ holds₁ => ?_)
  match out with
  | .error e => exact holds₁
  | .ok (.ok _, s) => exact holds₁
  | .ok (.error (.errno e), s) =>
      exact (forgetEach_stays grows.stable s.accepted).bind (fun _ => .exit) w₁ holds₁
  | .ok (.error .panic, s) => exact holds₁

theorem mknod_keeps (grows : Grows ok J A) (parent : NodeId) (name : OsStr) (mode rdev umask : Nat)
    (caller : Caller) : KeepsTo ok J ((pathNodeFs P).mknod parent name mode rdev umask caller) := by
  have keeps := make_keeps (O := Empty) (f := fun _ v => PathNodeFs.addNode parent name v) grows
    parent (.mknod · name mode rdev umask caller) fun _ v _ here => addNode_wp grows here name v
  exact keeps

theorem mkdir_keeps (grows : Grows ok J A) (parent : NodeId) (name : OsStr) (mode umask : Nat)
    (caller : Caller) : KeepsTo ok J ((pathNodeFs P).mkdir parent name mode umask caller) := by
  have keeps := make_keeps (O := Empty) (f := fun _ v => PathNodeFs.addNode parent name v) grows
    parent (.mkdir · name mode umask caller) fun _ v _ here => addNode_wp grows here name v
  exact keeps

theorem symlink_keeps (grows : Grows ok J A) (parent : NodeId) (name : OsStr) (target : Path)
    (caller : Caller) : KeepsTo ok J ((pathNodeFs P).symlink parent name target caller) := by
  have keeps := make_keeps (O := Empty) (f := fun _ v => PathNodeFs.addNode parent name v) grows
    parent (.symlink · name target caller) fun _ v _ here => addNode_wp grows here name v
  exact keeps

theorem create_keeps (grows : Grows ok J A) (parent : NodeId) (name : OsStr) (mode umask flags : Nat)
    (caller : Caller) :
    KeepsTo ok J ((pathNodeFs P).create parent name mode umask flags caller) := by
  have keeps := make_keeps (O := Empty) (f := fun _ (made : PathEntry P × Opened P.Handle) =>
    PathNodeFs.addNode parent name made.1 >>= fun id => .ret (id, made.2)) grows
    parent (.create · name mode umask flags caller) fun _ made _ here =>
      sure.bind ((addNode_wp grows here name made.1).mono fun out w' here' => by
        cases out with
        | ok id => exact here'
        | error e => exact here')
  exact keeps

/-- The requests that change one name on purpose. -/
def Request.edits : Request → Bool
  | .unlink _ _ _ => true
  | .rmdir _ _ _ => true
  | .rename _ _ _ _ _ _ => true
  | .link _ _ _ _ => true
  | _ => false

theorem Stays.reply {p : Action (pathTypes P) α} {f : α → Reply} (stays : Stays ok J p) :
    Stays ok J (p >>= fun a => .ret (f a)) :=
  stays.bind fun _ => .ret

theorem Request.keeps (grows : Grows ok J A) (q : Request) (plain : q.edits = false) :
    Stays ok J (q.run (pathNodeFs P)) := by
  have stable := grows.stable
  have node : ∀ {α : Type} {ino : Nat} {cb : PathNode P → Callback (pathTypes P) α},
      (∀ n, KeepsTo ok J (cb n)) →
      Stays ok J (Runtime.withNode (K := pathTypes P) ino fun n => Runtime.call (cb n.record.payload)) :=
    fun keeps => withNode_stays stable fun ref => (keeps _).stays
  cases q with
  | forget ino n => exact (forget_stays stable ino n).reply
  | statfs caller =>
      have keeps : KeepsTo ok J ((pathNodeFs P).statfs caller) := fun w holds =>
        withRead_wp stable.closed fun w₁ quiet =>
          inner_keeps stable (.statfs [] caller) w₁ (stable.quiet holds quiet)
      exact keeps.stays.reply
  | getattr ino fh caller =>
      exact (withNode_stays stable fun ref => withOptionalFile_stays stable fun h =>
        (getattr_keeps stable ref.record.payload h caller).stays).reply
  | setattr ino fh set caller =>
      have keeps : ∀ n h, KeepsTo ok J ((pathNodeFs P).setattr n h set caller) := fun n h =>
        onNode_keeps stable n fun r => inner_keeps stable (.setattr r h set caller)
      exact (withNode_stays stable fun ref => withOptionalFile_stays stable fun h =>
        (keeps ref.record.payload h).stays).reply
  | readlink ino caller =>
      exact (node fun n => onPath_keeps stable n fun r => inner_keeps stable (.readlink r caller)).reply
  | access ino mask caller =>
      exact (node fun n => onPath_keeps stable n fun r =>
        inner_keeps stable (.access r mask caller)).reply
  | setxattr ino name value flags caller =>
      exact (node fun n => onPath_keeps stable n fun r =>
        inner_keeps stable (.setxattr r name value flags caller)).reply
  | getxattr ino name size caller =>
      exact (node fun n => onPath_keeps stable n fun r =>
        inner_keeps stable (.getxattr r name size caller)).reply
  | listxattr ino size caller =>
      exact (node fun n => onPath_keeps stable n fun r =>
        inner_keeps stable (.listxattr r size caller)).reply
  | removexattr ino name caller =>
      exact (node fun n => onPath_keeps stable n fun r =>
        inner_keeps stable (.removexattr r name caller)).reply
  | «open» ino flags caller =>
      have keeps : ∀ n, KeepsTo ok J ((pathNodeFs P).open n flags caller) := fun n =>
        onPath_keeps stable n fun r => inner_keeps stable (.open r flags caller)
      exact (withNode_stays stable fun ref =>
        (keeps ref.record.payload).stays.bind (bindFile_stays stable ino)).reply
  | read ino fh offset size caller =>
      exact (onFile_stays stable fun n h => onNode_keeps stable n fun r =>
        inner_keeps stable (.read r h offset size caller)).reply
  | write ino fh data offset caller =>
      exact (onFile_stays stable fun n h => onNode_keeps stable n fun r =>
        inner_keeps stable (.write r h data offset caller)).reply
  | flush ino fh caller =>
      exact (onFile_stays stable fun n h => onNode_keeps stable n fun r =>
        inner_keeps stable (.flush r h caller)).reply
  | fsync ino fh datasync caller =>
      exact (onFile_stays stable fun n h => onNode_keeps stable n fun r =>
        inner_keeps stable (.fsync r h datasync caller)).reply
  | fallocate ino fh mode offset length caller =>
      exact (onFile_stays stable fun n h => onNode_keeps stable n fun r =>
        inner_keeps stable (.fallocate r h mode offset length caller)).reply
  | lseek ino fh offset whence caller =>
      exact (onFile_stays stable fun n h => onNode_keeps stable n fun r =>
        inner_keeps stable (.lseek r h offset whence caller)).reply
  | getlk ino fh owner requested caller =>
      exact (onFile_stays stable fun n h => onNode_keeps stable n fun r =>
        inner_keeps stable (.getlk r h owner requested caller)).reply
  | setlk ino fh owner lock sleep caller =>
      exact (onFile_stays stable fun n h => onNode_keeps stable n fun r =>
        inner_keeps stable (.setlk r h owner lock sleep caller)).reply
  | flock ino fh operation caller =>
      exact (onFile_stays stable fun n h => onNode_keeps stable n fun r =>
        inner_keeps stable (.flock r h operation caller)).reply
  | release ino fh caller =>
      exact (releaseHandle_stays stable (files_stays stable) fun n h => onNode_keeps stable n fun r =>
        inner_keeps stable (.release r h caller)).reply
  | opendir ino flags caller =>
      have keeps : ∀ n, KeepsTo ok J ((pathNodeFs P).opendir n flags caller) := fun n => by
        show KeepsTo ok J (PathNodeFs.opendir n flags caller)
        refine onPath_keeps stable n fun r => (inner_keeps stable (.opendir r flags caller)).bind
          fun opened w holds => ?_
        exact ext_wp (e := .newListings) rfl fun _ _ quiet _ => stable.quiet holds quiet
      exact (withNode_stays stable fun ref =>
        (keeps ref.record.payload).stays.bind (bindDir_stays stable ino)).reply
  | readdir ino fh offset caller => exact (readdir_stays grows ino fh offset caller).reply
  | readdirplus ino fh offset caller =>
      exact (readdirplus_stays grows ino fh offset caller).bind fun _ => .ret
  | fsyncdir ino fh datasync caller =>
      have keeps : ∀ n h, KeepsTo ok J ((pathNodeFs P).fsyncdir n h datasync caller) := fun n h =>
        onNode_keeps stable n fun r => inner_keeps stable (.fsyncdir r h.inner datasync caller)
      exact (withNode_stays stable fun ref => withDir_stays stable fun h =>
        (keeps ref.record.payload h).stays).reply
  | releasedir ino fh caller =>
      exact (releaseHandle_stays stable (dirs_stays stable) fun n h => onNode_keeps stable n fun r =>
        inner_keeps stable (.releasedir r h.inner caller)).reply
  | lookup parent name caller =>
      refine ((lookup_keeps grows parent name caller).stays.bind fun found => ?_).reply
      match found with
      | none => exact .ret
      | some id => exact (entryFor_stays stable id caller).bind fun _ => .ret
  | mknod parent name mode rdev umask caller =>
      exact ((mknod_keeps grows parent name mode rdev umask caller).stays.bind fun id =>
        entryFor_stays stable id caller).reply
  | mkdir parent name mode umask caller =>
      exact ((mkdir_keeps grows parent name mode umask caller).stays.bind fun id =>
        entryFor_stays stable id caller).reply
  | symlink parent name target caller =>
      exact ((symlink_keeps grows parent name target caller).stays.bind fun id =>
        entryFor_stays stable id caller).reply
  | create parent name mode umask flags caller =>
      exact ((create_keeps grows parent name mode umask flags caller).stays.bind fun made =>
        (entryFor_stays stable made.1 caller).bind fun entry =>
          (bindFile_stays stable made.1 made.2).bind fun reply => .ret).bind fun _ => .ret
  | copyFileRange ino offIn inoOut offOut len flags caller => exact Stays.reply fun _ holds => holds
  | unlink parent name caller => cases plain
  | rmdir parent name caller => cases plain
  | rename parent name newparent newname flags caller => cases plain
  | link ino newparent newname caller => cases plain

/-! ## Names changed on purpose -/

/-- What a request that changes one name makes of a condition: `I` held before it, `J` after. -/
structure Alters (ok : Allowed F) (q : Request) (I J : Sight P) : Prop where
  before : Stable I
  after : Stable J
  le : ∀ {t ns}, I t ns → J t ns
  keyed : ∀ {t ns id} {slot : Slot (PathNode P)}, I t ns → t.map[id]? = some slot →
    ns.keys[slot.record.payload.key]? = some id
  removes : ∀ {d id} {w : PathWorld F}, Holds I w → w.ext.ns.byName[d]? = some id → w.table.Tidy →
    Permits ok w (.removeLink id) () → J (w.table.removeLink id) (w.ext.ns.remove d).2
  moves : ∀ {old new replaced source ns} {w : PathWorld F}, Holds I w →
    w.ext.ns.rename old new = some (replaced, source, ns) → w.ext.ns.Placed new.parent →
    RenamePermitted ok w old new → w.table.Tidy →
    (∀ id, replaced = some id → Permits ok w (.removeLink id) ()) → PutsBack ok ns →
    J ((replaced.elim w.table w.table.removeLink).reparent source new.parent) ns
  links : ∀ {id newparent newname caller t'} {w : PathWorld F},
    q = .link id newparent newname caller → Holds I w → w.ext.ns.Placed id →
    w.ext.ns.Placed newparent → LinkPermitted ok w newparent newname →
    PutsBack ok (w.ext.ns.addAlias id ⟨newparent, newname⟩) →
    w.table.addLink id = (some (), t') → J t' (w.ext.ns.addAlias id ⟨newparent, newname⟩)
  full : ∀ {id newparent newname t'} {w₀ w : PathWorld F}, ok w₀ (.cx (.addLink id)) none →
    Holds I w → w.ext.ns.Placed newparent →
    PutsBack ok (w.ext.ns.addAlias id ⟨newparent, newname⟩) →
    w.table.addLink id = (none, t') → J t' (w.ext.ns.addAlias id ⟨newparent, newname⟩)

section Alters

variable {I : Sight P} {q : Request}

theorem Alters.ending (alters : Alters ok q I J) (ends : Ending J) : Ending I :=
  fun t ns holds => ends t ns (alters.le holds)

theorem Alters.removeEntry_wp (alters : Alters ok q I J) (holds : Holds I w) (parent : NodeId)
    (name : OsStr) {call : PathNodeRef P → PathNodeFs.Body P O Exit Unit}
    (calls : ∀ ref w,
      (call ref).sure (callbacks ok O) (Diverges (Ending J)) (fun _ w' => Quiet w w') w) :
    (PathNodeFs.removeEntry parent name call).sure (callbacks ok O) (Diverges (Ending J)) (fun _ w' => Holds J w') w := by
  refine TypedFuse.removeEntry_wp calls alters.before alters.ending alters.after.closed holds
    (fun _ _ holds => alters.le holds) (fun _ holds _ => alters.le holds)
    fun id w₁ w₂ holds₁ known tidy permits table names => ?_
  have after := alters.removes holds₁ known tidy permits
  rw [← table, ← names] at after
  exact after

theorem Alters.rename_wp (alters : Alters ok q I J) (holds : Holds I w) {parent newparent : NodeId}
    {name newname : OsStr} {flags : Nat} {caller : Caller} :
    (PathNodeFs.rename (P := P) (O := O) parent name newparent newname flags caller).sure
      (callbacks ok O) (Diverges (Ending J)) (fun _ w' => Holds J w') w := by
  refine TypedFuse.rename_wp alters.before alters.ending alters.keyed alters.after.closed holds
    (fun _ _ holds => alters.le holds) (fun _ holds _ => alters.le holds)
    (fun replaced source ns w₁ w₂ holds₁ renamed placed permitted tidy permits back table names =>
      ?_) flags
  have after := alters.moves holds₁ renamed placed permitted tidy permits back
  rw [← table, ← names] at after
  exact after

theorem Alters.link_wp {id newparent : NodeId} {newname : OsStr} {caller : Caller}
    (alters : Alters ok (.link id newparent newname caller) I J) (holds : Holds I w) :
    (PathNodeFs.link (P := P) (O := O) id newparent newname caller).sure (callbacks ok O) (Diverges (Ending J))
      (fun _ w' => Holds J w') w := by
  refine TypedFuse.link_wp alters.before alters.ending alters.keyed alters.after.closed holds
    (fun _ _ holds => alters.le holds)
    (fun w₁ w₂ holds₁ placed placed' permitted back added names => ?_)
    fun w₀ w₁ w₂ overflow holds₁ placed back added names => ?_
  · have after := alters.links rfl holds₁ placed placed' permitted back added
    rw [← names] at after
    exact after
  · have after := alters.full overflow holds₁ placed back added
    rw [← names] at after
    exact after

theorem Request.changes (alters : Alters ok q I J) (edits : q.edits = true) (holds : Holds I w) :
    (q.run (pathNodeFs P)).sure (byItself ok) (Recurses (Ending J)) (fun _ w' => Holds J w') w := by
  have reply : ∀ {α : Type} {p : Action (pathTypes P) α} {f : α → Reply},
      p.sure (byItself ok) (Recurses (Ending J)) (fun _ w' => Holds J w') w →
      (p >>= fun a => .ret (f a)).sure (byItself ok) (Recurses (Ending J)) (fun _ w' => Holds J w') w := fun first =>
    sure.bind (first.mono fun out _ holds => by
      cases out with
      | ok a => exact holds
      | error e => exact holds)
  cases q with
  | unlink parent name caller =>
      have body := alters.removeEntry_wp (O := Empty) holds parent name
        fun ref w => inner_quiet (.unlink ref name caller) w
      have whole : (Runtime.unlink (pathNodeFs P) caller parent name).sure (byItself ok) (Recurses (Ending J))
          (fun _ w' => Holds J w') w := call_wp body
      exact reply whole
  | rmdir parent name caller =>
      have body := alters.removeEntry_wp (O := Empty) holds parent name
        fun ref w => inner_quiet (.rmdir ref name caller) w
      have whole : (Runtime.rmdir (pathNodeFs P) caller parent name).sure (byItself ok) (Recurses (Ending J))
          (fun _ w' => Holds J w') w := call_wp body
      exact reply whole
  | rename parent name newparent newname flags caller =>
      have whole : (Runtime.rename (pathNodeFs P) caller parent name newparent newname flags).sure
          (byItself ok) (Recurses (Ending J)) (fun _ w' => Holds J w') w := call_wp (alters.rename_wp holds)
      exact reply whole
  | link id newparent newname caller =>
      have linked : (Runtime.call ((pathNodeFs P).link id newparent newname caller)).sure (byItself ok) (Recurses (Ending J))
          (fun _ w' => Holds J w') w := call_wp (alters.link_wp holds)
      refine reply (sure.bind (linked.mono fun out w₁ holds₁ => ?_))
      cases out with
      | ok id => exact entryFor_stays alters.after id caller w₁ holds₁
      | error e => exact holds₁
  | _ => cases edits

end Alters

end Glue

end TypedFuse
