import TypedFuse.Runtime.Protocol

/-!
# Every request keeps the protocol

One rule for the operations (`Safe.rtOp`), one lemma for each building block of a request, and
from these that every request is safe (`Request.safe`): it meets the guards of its operations and
leaves nothing in hand but the lookups of the entries it hands out.  The callbacks are arbitrary.
-/

namespace TypedFuse

open Std Prog NodeTable

variable {K : FsTypes} {X : Machine K.Ext} {strict leaky : Prop} {α σ : Type} {T T' T₀ F : Holdings}

/-! ## Operations -/

/-- What an operation takes from its thread. -/
def RtOp.needs : RtOp K → Holdings
  | .dropRef ref => .ref ref.lease
  | .beginForget ino nlookup => .looked (Multiset.replicate nlookup ino)
  | .removeOpen ino => .opened ino
  | .file o => { files := o.needs }
  | .dir o => { dirs := o.needs }
  | .addFile node _ => .opened node
  | .addDir node _ => .opened node
  | _ => 0

/-- What it gives. -/
def RtOp.gives : (o : RtOp K) → o.Res → Holdings
  | .get _, r => { refs := taken r.join }
  | .retainLookup id, r => .looked (r.join.elim 0 fun _ => {id})
  | .beginForget _ _, r => { refs := taken r.join.join }
  | .addOpen ino, (r : Option Bool) => if r = some true then .opened ino else 0
  | .file o, r => { files := o.gives r, opens := o.unlists r }
  | .dir o, r => { dirs := o.gives r, opens := o.unlists r }
  | .addFile node _, r => if r.isSome then 0 else .opened node
  | .addDir node _, r => if r.isSome then 0 else .opened node
  | _, _ => 0

theorem World.Inv.cx {w w' : World K X.State} {o : CxOp K} {r : o.Res} (inv : World.Inv strict w T)
    (step : World.cxStep X o w r w') : World.Inv strict w' T := by
  cases o with
  | get id =>
      obtain ⟨rfl, rfl⟩ := step
      exact inv.cxGet id
  | drop ref =>
      obtain ⟨mem, rfl⟩ := step
      exact inv.cxDrop mem
  | contains id =>
      obtain ⟨-, rfl⟩ := step
      exact inv
  | insert payload parent =>
      obtain ⟨-, rfl⟩ := step
      exact inv.insert payload parent
  | reparent id newParent =>
      cases step
      exact inv.reparent id newParent
  | addLink id =>
      obtain ⟨-, rfl⟩ := step
      exact inv.addLink id
  | removeLink id =>
      cases step
      exact inv.removeLink id
  | ext e =>
      obtain ⟨x, -, rfl⟩ := step
      exact ⟨inv.held, inv.numbered, inv.files, inv.dirs, inv.apart, inv.counted⟩

theorem World.Inv.step {w w' : World K X.State} {o : RtOp K} {r : o.Res}
    (inv : World.Inv strict w (o.needs + T)) (step : World.step X o w r w') :
    World.Inv strict w' (o.gives r + T) := by
  have idle : World.Inv strict w (0 + T) → World.Inv strict w T := fun inv => by rwa [zero_add] at inv
  cases o with
  | cx o => exact (World.Inv.cx inv step)
  | get id =>
      obtain ⟨rfl, rfl⟩ := step
      exact (idle inv).get id
  | dropRef ref =>
      cases step
      exact (zero_add T).symm ▸ inv.dropRef
  | retainLookup id =>
      obtain ⟨rfl, rfl⟩ := step
      exact (idle inv).retainLookup id
  | generationOf id =>
      obtain ⟨-, rfl⟩ := step
      exact inv
  | parentOf ino =>
      obtain ⟨-, rfl⟩ := step
      exact inv
  | beginForget ino nlookup =>
      obtain ⟨rfl, rfl⟩ := step
      exact inv.beginForget
  | maybeDrop id =>
      cases step
      exact inv.maybeDrop id
  | addOpen ino =>
      obtain ⟨rfl, rfl⟩ := step
      exact (idle inv).addOpen ino
  | removeOpen ino =>
      cases step
      exact (zero_add T).symm ▸ inv.removeOpen
  | hasOpens ino =>
      obtain ⟨-, rfl⟩ := step
      exact inv
  | file o =>
      obtain ⟨files, step, rfl⟩ := step
      exact inv.file step
  | dir o =>
      obtain ⟨dirs, step, rfl⟩ := step
      exact inv.dir step
  | addFile node handle =>
      obtain ⟨rfl, rfl⟩ := step
      exact inv.addFile handle
  | addDir node handle =>
      obtain ⟨rfl, rfl⟩ := step
      exact inv.addDir handle
  | offerDir ino entry =>
      cases step
      exact inv
  | offerPlus ino entry =>
      cases step
      exact inv

theorem World.Inv.guard {w : World K X.State} {o : RtOp K}
    (inv : World.Inv strict w (o.needs + T)) : World.Guard o w := by
  unfold World.Guard
  split
  · exact inv.files.guard
  · exact inv.dirs.guard
  · trivial

/-- The rule for one operation. -/
theorem Safe.rtOp {ε : Type} {o : RtOp K} {k : o.Res → Prog (rtSig K) ε α}
    {Q : Except ε α → Holdings → Prop} (owns : T = o.needs + T₀)
    (rest : ∀ r, (k r).Safe (protocol X strict) (o.gives r + T₀) Q) :
    (Prog.op o k : Prog (rtSig K) ε α).Safe (protocol X strict) T Q := by
  intro w F inv
  rw [owns, add_assoc] at inv
  refine ⟨World.Inv.guard inv, fun r w' step => ⟨o.gives r + T₀, ?_, rest r⟩⟩
  rw [add_assoc]
  exact World.Inv.step inv step

/-- An operation that neither takes nor gives. -/
theorem Safe.idle {ε : Type} {o : RtOp K} {k : o.Res → Prog (rtSig K) ε α}
    {Q : Except ε α → Holdings → Prop} (needs : o.needs = 0) (gives : ∀ r, o.gives r = 0)
    (rest : ∀ r, (k r).Safe (protocol X strict) T Q) :
    (Prog.op o k : Prog (rtSig K) ε α).Safe (protocol X strict) T Q := by
  refine Safe.rtOp (by rw [needs, zero_add]) fun r => ?_
  rw [gives, zero_add]
  exact rest r

/-- Where lookups are not counted, a program is as safe without any. -/
theorem Safe.unlooked {ε : Type} {p : Prog (rtSig K) ε α} {lookups : Multiset NodeId}
    {Q : Except ε α → Holdings → Prop} {Q' : Except ε α → Prop}
    (safe : p.Safe (protocol X False) (.looked lookups + T) Q) (imp : ∀ out T', Q out T' → Q' out) :
    p.Safe (protocol X False) T fun out _ => Q' out := by
  cases p with
  | ret a => exact imp _ _ safe
  | exit e => exact imp _ _ safe
  | op o k =>
      intro w F inv
      have inv : World.Inv False w (T + F) := inv
      have looked : World.Inv False w (.looked lookups + T + F) :=
        inv.onTable (by simpa [Holdings.looked] using inv.held) inv.numbered nofun
          (by simp [Holdings.looked]) (by simp [Holdings.looked])
      obtain ⟨guard, steps⟩ := safe w F looked
      refine ⟨guard, fun r w' step => ?_⟩
      obtain ⟨T', inv', rest⟩ := steps r w' step
      exact ⟨T', inv', rest.mono imp⟩

/-! ## Building blocks -/

/-- How a part of a request ends: with `owed` of its result in hand, or with an error and nothing
in hand, or in a panic, which leaves lookups behind only where the part is `leaky`. -/
def Ends (strict leaky : Prop) (owed : α → Holdings) : Except Exit α → Holdings → Prop
  | .ok a, T => T = owed a
  | .error (.errno _), T => strict → T = 0
  | .error .panic, T => leaky ∨ T.lookups = 0

namespace Runtime

/-- A callback leaves its caller's holdings alone. -/
theorem call_safe {ε : Type} (cb : Prog (cbSig K Empty) ε α) :
    (call cb).Safe (protocol X strict) T fun _ T' => T' = T := by
  refine Safe.interp fun o => ?_
  cases o with
  | cx o => exact Safe.idle rfl (fun _ => rfl) fun _ => rfl
  | offer e => exact nomatch e

theorem call_ends {owed : α → Holdings} {cb : Callback K α} (none : ∀ a, owed a = 0) :
    (call cb).Safe (protocol X strict) 0 (Ends strict leaky owed) :=
  (call_safe cb).mono fun out T' same => by
    subst same
    match out with
    | .ok a => exact (none a).symm
    | .error (.errno _) => exact fun _ => rfl
    | .error .panic => exact .inr rfl

theorem callTotal_safe (cb : TotalCallback K α) :
    (callTotal cb).Safe (protocol X strict) T fun out T' => T' = T ∧
      ∀ e, out = .error e → e = .panic :=
  Safe.mapExit ((call_safe cb).mono fun out T' same => ⟨same, fun e error => by
    cases out with
    | ok a => cases error
    | error p => exact (Except.error.inj error).symm⟩)

theorem node_safe (ino : Nat) :
    (node ino : Action K _).Safe (protocol X strict) T fun out T' =>
      match out with
      | .ok ref => T' = .ref ref.lease + T
      | .error (.errno e) => e = .ENOENT ∧ T' = T
      | .error .panic => T' = T := by
  refine Safe.rtOp (zero_add T).symm fun r => ?_
  match r with
  | none => exact zero_add T
  | some none => exact ⟨rfl, zero_add T⟩
  | some (some ref) => exact rfl

/-- A scope with a node lease gives the lease back. -/
theorem lease_safe {Q : Except Exit α → Holdings → Prop} {ref : NodeRef K.Node}
    {body : Action K α} (safe : body.Safe (protocol X strict) T Q) :
    (body.andFinally (.op (.dropRef ref) .ret)).Safe (protocol X strict) (.ref ref.lease + T) Q := by
  refine Safe.andFinally ?_
  rw [add_comm]
  refine (safe.frame _).mono fun out T' done => ?_
  obtain ⟨T₀, rfl, done⟩ := done
  refine Safe.rtOp (add_comm T₀ _) fun r => ⟨rfl, ?_⟩
  show Q out (0 + T₀)
  rwa [zero_add]

theorem withNode_safe {Q : Except Exit α → Holdings → Prop} {ino : Nat}
    {body : NodeRef K.Node → Action K α} (safe : ∀ ref, (body ref).Safe (protocol X strict) T Q)
    (dead : Q (.error (.errno .ENOENT)) T) (panic : Q (.error .panic) T) :
    (withNode ino body).Safe (protocol X strict) T Q := by
  refine Safe.bind ((node_safe ino).mono fun out T' done => ?_)
  match out with
  | .ok ref =>
      cases done
      exact lease_safe (safe ref)
  | .error (.errno e) =>
      obtain ⟨rfl, rfl⟩ := done
      exact dead
  | .error .panic =>
      cases done
      exact panic

theorem withNode_ends {owed : α → Holdings} {ino : Nat} {body : NodeRef K.Node → Action K α}
    (safe : ∀ ref, (body ref).Safe (protocol X strict) 0 (Ends strict leaky owed)) :
    (withNode ino body).Safe (protocol X strict) 0 (Ends strict leaky owed) :=
  withNode_safe safe (fun _ => rfl) (.inr rfl)

/-- A node with an open counted for it is there. -/
theorem withNode_opened {Q : Except Exit α → Holdings → Prop} {ino : Nat}
    {body : NodeRef K.Node → Action K α}
    (safe : ∀ ref, (body ref).Safe (protocol X strict) (.opened ino + T) Q)
    (panic : Q (.error .panic) (.opened ino + T)) :
    (withNode ino body).Safe (protocol X strict) (.opened ino + T) Q := by
  intro w F inv
  have inv : World.Inv strict w (.opened ino + T + F) := inv
  refine ⟨trivial, fun r w' step => ?_⟩
  obtain ⟨rfl, rfl⟩ := step
  have inv' := inv.get ino
  obtain ⟨slot, live⟩ := inv.held.opened ino (by simp [Holdings.opened])
  rcases get_cases w.table ino with ⟨dead, -⟩ | eq | ⟨slot', -, eq⟩
  · rw [dead] at live
    cases live
  · refine ⟨.opened ino + T, ?_, ?_⟩
    · rw [eq] at inv' ⊢
      exact inv
    · rw [eq]
      exact panic
  · refine ⟨.ref ⟨ino, slot'.record.ptr⟩ + (.opened ino + T), ?_, ?_⟩
    · rw [eq] at inv' ⊢
      rw [add_assoc]
      exact inv'
    · rw [eq]
      exact lease_safe (safe _)

/-- How the sections on one map of the handle table are performed, and what of their holdings
belongs to that map. -/
structure Sections (X : Machine K.Ext) (strict : Prop) {P : Type}
    (sections : (o : HandleOp) → Action K (o.Res P)) where
  hold : Grip → Multiset NodeId → Holdings
  zero : hold 0 0 = 0
  opened : ∀ g ino, hold g {ino} = .opened ino + hold g 0
  lookups : ∀ g ids, (hold g ids).lookups = 0
  safe : ∀ (o : HandleOp) (T : Holdings),
    (sections o).Safe (protocol X strict) (hold o.needs 0 + T) fun out T' =>
      ∃ r, out = .ok r ∧ T' = hold (o.gives r) (o.unlists r) + T

def fileSections : Sections X strict (files (K := K)) where
  hold g opens := { files := g, opens }
  zero := rfl
  opened g ino := by ext1 <;> simp [Holdings.opened]
  lookups _ _ := rfl
  safe o T := Safe.rtOp rfl fun r => ⟨r, rfl, rfl⟩

def dirSections : Sections X strict (dirs (K := K)) where
  hold g opens := { dirs := g, opens }
  zero := rfl
  opened g ino := by ext1 <;> simp [Holdings.opened]
  lookups _ _ := rfl
  safe o T := Safe.rtOp rfl fun r => ⟨r, rfl, rfl⟩

section Handles

variable {P : Type} {sections : (o : HandleOp) → Action K (o.Res P)}
  (S : Sections X strict sections)

include S

/-- A section that takes nothing. -/
theorem Sections.start {o : HandleOp} (needs : o.needs = 0) :
    (sections o).Safe (protocol X strict) T fun out T' =>
      ∃ r, out = .ok r ∧ T' = S.hold (o.gives r) (o.unlists r) + T := by
  have safe := S.safe o T
  rwa [needs, S.zero, zero_add] at safe

theorem handleLease_safe (ino fh : Nat) :
    (handleLease sections ino fh).Safe (protocol X strict) T fun out T' =>
      match out with
      | .ok _ => T' = S.hold { leases := {fh} } 0 + T
      | .error _ => T' = T := by
  have held : S.hold 0 0 + T = T := by rw [S.zero, zero_add]
  refine Safe.bind ((S.start rfl).mono fun out T' done => ?_)
  obtain ⟨r, rfl, rfl⟩ := done
  match r with
  | none => exact held
  | some node =>
      show Prog.Safe _ (if node ≠ ino then _ else _) (S.hold 0 0 + T) _
      split
      · exact held
      · rw [held]
        refine Safe.bind ((S.start rfl).mono fun out T' done => ?_)
        obtain ⟨r, rfl, rfl⟩ := done
        match r with
        | none => exact held
        | some none => exact held
        | some (some payload) => rfl

/-- A scope with a handle lease gives the lease back. -/
theorem handle_safe {Q : Except Exit α → Holdings → Prop} {fh : Nat} {body : Action K α}
    {fin : Action K Unit} (unlease : fin = sections (.unlease fh))
    (safe : body.Safe (protocol X strict) T Q) :
    (body.andFinally fin).Safe (protocol X strict) (S.hold { leases := {fh} } 0 + T) Q := by
  subst unlease
  refine Safe.andFinally ?_
  rw [add_comm]
  refine (safe.frame _).mono fun out T' done => ?_
  obtain ⟨T₀, rfl, done⟩ := done
  rw [add_comm]
  refine (S.safe (.unlease fh) T₀).mono fun out' T' ended => ?_
  obtain ⟨r, rfl, rfl⟩ := ended
  refine ⟨rfl, ?_⟩
  show Q out (S.hold 0 0 + T₀)
  rwa [S.zero, zero_add]

/-- The rest of a release, once it has its node again. -/
theorem releaseTail_safe (ino fh : Nat) (callback : P → Callback K Unit) :
    (.op (.removeOpen ino) fun _ => sections (.close fh) >>= fun _ =>
      sections (.take fh) >>= fun payload => call (callback payload) : Action K Unit).Safe
      (protocol X strict) (.opened ino + S.hold { removed := {fh} } 0) (Ends strict leaky fun _ => 0) := by
  have zero : S.hold 0 0 + 0 = 0 := by rw [S.zero, zero_add]
  refine Safe.rtOp rfl fun _ => ?_
  show Prog.Safe _ _ (0 + S.hold (HandleOp.close fh).needs 0) _
  rw [zero_add, ← add_zero (S.hold _ _)]
  refine Safe.bind ((S.safe (.close fh) 0).mono fun out T' done => ?_)
  obtain ⟨r, rfl, rfl⟩ := done
  refine Safe.bind ((S.safe (.take fh) 0).mono fun out T' done => ?_)
  obtain ⟨r, rfl, rfl⟩ := done
  show Prog.Safe _ _ (S.hold 0 0 + 0) _
  rw [zero]
  exact call_ends fun _ => rfl

theorem releaseHandle_safe (ino fh : Nat) (callback : K.Node → P → Callback K Unit) :
    (releaseHandle sections ino fh callback).Safe (protocol X strict) 0 (Ends strict leaky fun _ => 0) := by
  refine Safe.bind ((S.start rfl).mono fun out T' done => ?_)
  obtain ⟨r, rfl, rfl⟩ := done
  match r with
  | false =>
      intro _
      show S.hold 0 0 + 0 = 0
      rw [S.zero, zero_add]
  | true =>
      show Prog.Safe _ (withNode ino _) (S.hold { removed := {fh} } {ino} + 0) _
      rw [S.opened, add_zero]
      refine withNode_opened (fun ref => releaseTail_safe S ino fh _) (.inr ?_)
      rw [Holdings.add_lookups, S.lookups]
      rfl

end Handles

theorem withFile_ends {owed : α → Holdings} {ino fh : Nat} {body : K.Handle → Action K α}
    (safe : ∀ h, (body h).Safe (protocol X strict) 0 (Ends strict leaky owed)) :
    (withFile ino fh body).Safe (protocol X strict) 0 (Ends strict leaky owed) := by
  refine Safe.bind ((handleLease_safe fileSections ino fh).mono fun out T' done => ?_)
  match out with
  | .ok h =>
      cases done
      exact handle_safe fileSections rfl (safe h)
  | .error (.errno e) => exact fun _ => done
  | .error .panic =>
      cases done
      exact .inr rfl

theorem withDir_ends {owed : α → Holdings} {ino fh : Nat} {body : K.DirHandle → Action K α}
    (safe : ∀ h, (body h).Safe (protocol X strict) 0 (Ends strict leaky owed)) :
    (withDir ino fh body).Safe (protocol X strict) 0 (Ends strict leaky owed) := by
  refine Safe.bind ((handleLease_safe dirSections ino fh).mono fun out T' done => ?_)
  match out with
  | .ok h =>
      cases done
      exact handle_safe dirSections rfl (safe h)
  | .error (.errno e) => exact fun _ => done
  | .error .panic =>
      cases done
      exact .inr rfl

theorem optionalFile_ends (fs : NodeFs K) (ino : Nat) (n : K.Node) (fh : Option Nat) :
    (optionalFile fs ino n fh).Safe (protocol X strict) 0
      (Ends strict False fun lease => lease.elim 0 fun l => { files := { leases := {l.1} } }) := by
  cases fh with
  | some fh =>
      refine Safe.bind ((handleLease_safe fileSections ino fh).mono fun out T' done => ?_)
      match out with
      | .ok h => exact done.trans (add_zero _)
      | .error (.errno e) => exact fun _ => done
      | .error .panic =>
          cases done
          exact .inr rfl
  | none =>
      refine Safe.idle rfl (fun _ => rfl) fun opened => ?_
      cases opened with
      | false => exact rfl
      | true =>
          refine Safe.bind ((callTotal_safe _).mono fun out T' done => ?_)
          obtain ⟨rfl, panics⟩ := done
          match out with
          | .error (.errno e) => cases panics _ rfl
          | .error .panic => exact .inr rfl
          | .ok false => exact rfl
          | .ok true =>
              refine Safe.rtOp (add_zero 0).symm fun r => ?_
              match r with
              | none => exact .inr rfl
              | some none => exact add_zero _
              | some (some lease) => exact add_zero _

theorem withOptionalFile_ends {owed : α → Holdings} {fs : NodeFs K} {ino : Nat} {n : K.Node}
    {fh : Option Nat} {body : Option K.Handle → Action K α}
    (safe : ∀ h, (body h).Safe (protocol X strict) 0 (Ends strict leaky owed)) :
    (withOptionalFile fs ino n fh body).Safe (protocol X strict) 0 (Ends strict leaky owed) := by
  refine Safe.bind ((optionalFile_ends fs ino n fh).mono fun out T' done => ?_)
  match out with
  | .ok none =>
      cases done
      exact safe none
  | .ok (some (fh, h)) =>
      cases done
      have scope : ((body (some h)).andFinally (files (.unlease fh))).Safe (protocol X strict)
          (_ + 0) (Ends strict leaky owed) := handle_safe fileSections rfl (safe (some h))
      rwa [add_zero] at scope
  | .error (.errno e) => exact done
  | .error .panic => exact done.imp False.elim id

/-- An entry reply names the node asked for and comes with the lookup it hands out. -/
theorem entryFor_safe (fs : NodeFs K) (id : NodeId) (caller : Caller) :
    (entryFor fs id caller).Safe (protocol X strict) 0 fun out T' =>
      Ends strict False (fun _ => .looked {id}) out T' ∧ ∀ e, out = .ok e → e.ino = id := by
  refine withNode_safe (fun n => Safe.bind ((call_safe _).mono fun out T' same => ?_))
    ⟨fun _ => rfl, fun e ok => nomatch ok⟩ ⟨.inr rfl, fun e ok => nomatch ok⟩
  subst same
  match out with
  | .error (.errno e) => exact ⟨fun _ => rfl, fun e ok => nomatch ok⟩
  | .error .panic => exact ⟨.inr rfl, fun e ok => nomatch ok⟩
  | .ok attr =>
      refine Safe.rtOp (add_zero 0).symm fun r => ?_
      match r with
      | none => exact ⟨.inr rfl, fun e ok => nomatch ok⟩
      | some none => exact ⟨fun _ => add_zero _, fun e ok => nomatch ok⟩
      | some (some generation) =>
          refine ⟨add_zero _, fun e ok => ?_⟩
          cases ok
          rfl

theorem entryFor_ends (fs : NodeFs K) (id : NodeId) (caller : Caller) :
    (entryFor fs id caller).Safe (protocol X strict) 0 (Ends strict False fun e => .looked {e.ino}) := by
  refine (entryFor_safe fs id caller).mono fun out T' done => ?_
  obtain ⟨done, ino⟩ := done
  match out with
  | .ok e =>
      cases ino e rfl
      exact done
  | .error (.errno e) => exact done
  | .error .panic => exact done

/-- `forget` cannot fail otherwise than by a panic, and takes the lookups even then. -/
theorem forget_settles (fs : NodeFs K) (ino nlookup : Nat) :
    (forget fs ino nlookup).Safe (protocol X strict)
      (.looked (Multiset.replicate nlookup ino)) fun out T' =>
        T' = 0 ∧ (out = .ok () ∨ out = .error .panic) := by
  refine Safe.rtOp (add_zero _).symm fun r => ?_
  match r with
  | none => exact ⟨add_zero _, .inr rfl⟩
  | some none => exact ⟨add_zero _, .inl rfl⟩
  | some (some none) => exact Safe.idle rfl (fun _ => rfl) fun _ => ⟨add_zero _, .inl rfl⟩
  | some (some (some ref)) =>
      refine lease_safe ((callTotal_safe _).mono fun out T' done => ?_)
      obtain ⟨rfl, panics⟩ := done
      refine ⟨rfl, ?_⟩
      match out with
      | .ok () => exact .inl rfl
      | .error e =>
          cases panics e rfl
          exact .inr rfl

/-- The loop reaches its end or panics. -/
theorem forgetEach_ends (fs : NodeFs K) (ids : List NodeId) :
    (forgetEach fs ids).Safe (protocol X strict) (.looked ids) fun out T' =>
      (out = .ok () ∧ T' = 0) ∨ out = .error .panic := by
  induction ids with
  | nil => exact .inl ⟨rfl, rfl⟩
  | cons id rest ih =>
      have split : Holdings.looked (id :: rest : List NodeId) =
          .looked (Multiset.replicate 1 id) + .looked rest := by
        ext1 <;> simp [Holdings.looked]
      rw [split]
      refine Safe.seq (forget_settles fs id 1) fun out T' done => ?_
      obtain ⟨rfl, rfl | rfl⟩ := done
      · rw [zero_add]
        exact ih
      · exact .inr rfl

theorem addOpen_ends (ino : Nat) :
    (addOpen ino : Action K Unit).Safe (protocol X strict) 0 (Ends strict False fun _ => .opened ino) := by
  refine Safe.rtOp (add_zero 0).symm fun r => ?_
  match r with
  | none => exact .inr rfl
  | some false => exact fun _ => add_zero _
  | some true => exact add_zero _

/-- A node with a lookup counted for it is there. -/
theorem addOpen_looked (ino : Nat) :
    (addOpen ino : Action K Unit).Safe (protocol X strict) (.looked {ino}) fun out T' =>
      match out with
      | .ok () => T' = .opened ino + .looked {ino}
      | .error (.errno _) => ¬strict
      | .error .panic => True := by
  intro w F inv
  have inv : World.Inv strict w (.looked {ino} + F) := inv
  refine ⟨trivial, fun r w' step => ?_⟩
  obtain ⟨rfl, rfl⟩ := step
  have inv' := inv.addOpen ino
  refine ⟨(if (w.table.addOpen ino).1 = some true then .opened ino else 0) + .looked {ino}, ?_, ?_⟩
  · rw [add_assoc]
    exact inv'
  · rcases addOpen_cases w.table ino with ⟨dead, eq⟩ | eq | ⟨slot, live, eq⟩
    · rw [eq]
      intro s
      obtain ⟨slot, live⟩ := (inv.counted s).live ino (by simp [Holdings.looked])
      rw [dead] at live
      cases live
    · rw [eq]
      trivial
    · rw [eq]
      exact rfl

theorem bindFile_ends (ino : Nat) (opened : Opened K.Handle) :
    (bindFile ino opened).Safe (protocol X strict) 0 (Ends strict False fun _ => 0) := by
  refine Safe.bind ((addOpen_ends ino).mono fun out T' done => ?_)
  match out with
  | .error (.errno e) => exact done
  | .error .panic => exact done
  | .ok () =>
      cases done
      refine Safe.rtOp (add_zero _).symm fun r => ?_
      match r with
      | none => exact .inr rfl
      | some fh => exact add_zero _

theorem bindDir_ends (ino : Nat) (opened : Opened K.DirHandle) :
    (bindDir ino opened).Safe (protocol X strict) 0 (Ends strict False fun _ => 0) := by
  refine Safe.bind ((addOpen_ends ino).mono fun out T' done => ?_)
  match out with
  | .error (.errno e) => exact done
  | .error .panic => exact done
  | .ok () =>
      cases done
      refine Safe.rtOp (add_zero _).symm fun r => ?_
      match r with
      | none => exact .inr rfl
      | some fh => exact add_zero _

/-- One part of a request after another, the first of which owes nothing. -/
theorem ends_bind {β : Type} {p : Action K α} {f : α → Action K β} {owed : β → Holdings}
    (first : p.Safe (protocol X strict) 0 (Ends strict leaky fun _ => 0))
    (second : ∀ a, (f a).Safe (protocol X strict) 0 (Ends strict leaky owed)) :
    (p >>= f).Safe (protocol X strict) 0 (Ends strict leaky owed) := by
  refine Safe.bind (first.mono fun out T' done => ?_)
  match out with
  | .ok a =>
      cases done
      exact second a
  | .error (.errno e) => exact done
  | .error .panic => exact done

theorem onFile_ends (ino fh : Nat) (callback : K.Node → K.Handle → Callback K α) :
    (onFile ino fh callback).Safe (protocol X strict) 0 (Ends strict leaky fun _ => 0) :=
  withNode_ends fun _ => withFile_ends fun _ => call_ends fun _ => rfl

theorem onDir_ends {owed : α → Holdings} {ino fh : Nat}
    {body : K.Node → NodeId → K.DirHandle → Action K α}
    (safe : ∀ n parent h, (body n parent h).Safe (protocol X strict) 0 (Ends strict leaky owed)) :
    (onDir ino fh body).Safe (protocol X strict) 0 (Ends strict leaky owed) := by
  refine withNode_ends fun n => Safe.idle rfl (fun _ => rfl) fun r => ?_
  match r with
  | none => exact fun _ => rfl
  | some parent => exact withDir_ends fun h => safe _ _ h

/-- A sink that keeps the protocol and cannot leave early. -/
def SinkSafe (X : Machine K.Ext) (strict : Prop) {O : Type}
    (sink : O → σ → Action K (Option Bool × σ)) : Prop :=
  ∀ e s, (sink e s).Safe (protocol X strict) 0 fun out T' => T' = 0 ∧ ∃ r, out = .ok r

theorem readdir_ends (fs : NodeFs K) (ino fh : Nat) (caller : Caller)
    {sink : DirOffer → σ → Action K (Option Bool × σ)} (safe : SinkSafe X strict sink) (s : σ)
    (offset : Nat) :
    (readdir fs ino fh caller sink s offset).Safe (protocol X strict) 0 (Ends strict leaky fun _ => 0) := by
  refine onDir_ends fun n parent h => Safe.bind (Safe.mono (Safe.interpState (M := runtime X)
    (fun _ => 0) (fun o s => ?_) s) fun out T' done => ?_)
  · cases o with
    | cx o => exact Safe.idle rfl (fun _ => rfl) fun _ => rfl
    | offer e =>
        refine (safe e s).mono fun out T' done => ?_
        obtain ⟨rfl, r, rfl⟩ := done
        rfl
  · obtain ⟨out', s', rfl, rfl⟩ := done
    match out' with
    | .ok () => rfl
    | .error (.errno e) => exact fun _ => rfl
    | .error .panic => exact .inr rfl

/-- The wrapped sink holds a lookup for each entry it has recorded. -/
theorem accounting_safe {sink : PlusEntry → σ → Action K (Option Bool × σ)}
    (safe : SinkSafe X strict sink) (offer : PlusOffer) (s : Accounting σ) :
    (Accounting.add sink offer s).Safe (protocol X strict) (.looked s.accepted) fun out T' =>
      ∃ r s', out = .ok (r, s') ∧ T' = .looked s'.accepted := by
  refine Safe.idle rfl (fun _ => rfl) fun r => ?_
  match r with
  | none => exact ⟨_, s, rfl, rfl⟩
  | some generation =>
      rw [← zero_add (Holdings.looked _)]
      refine Safe.seq (safe _ s.inner) fun out T' done => ?_
      obtain ⟨rfl, ⟨took, inner⟩, rfl⟩ := done
      rw [zero_add]
      match took with
      | none => exact ⟨_, _, rfl, rfl⟩
      | some false => exact ⟨_, _, rfl, rfl⟩
      | some true =>
          dsimp only
          split
          · refine Safe.rtOp (zero_add _).symm fun r => ?_
            match r with
            | none => exact ⟨_, _, rfl, zero_add _⟩
            | some none => exact ⟨_, _, rfl, zero_add _⟩
            | some (some generation) =>
                refine ⟨_, _, rfl, ?_⟩
                ext1 <;> simp [RtOp.gives, Holdings.looked, ← Multiset.coe_add, add_comm]
          · exact ⟨_, _, rfl, rfl⟩

theorem readdirplus_ends (fs : NodeFs K) (ino fh : Nat) (caller : Caller)
    {sink : PlusEntry → σ → Action K (Option Bool × σ)} (safe : SinkSafe X strict sink) (s : σ)
    (offset : Nat) :
    (readdirplus fs ino fh caller sink s offset).Safe (protocol X strict) 0
      (Ends strict True fun r => .looked r.1) := by
  refine onDir_ends fun n parent h => Safe.bind (Safe.mono (Safe.interpState (M := runtime X)
    (fun s => Holdings.looked s.accepted) (fun o s => ?_) (Accounting.mk s [])) fun out T' done => ?_)
  · cases o with
    | cx o => exact Safe.idle rfl (fun _ => rfl) fun _ => rfl
    | offer e =>
        refine (accounting_safe safe e s).mono fun out T' done => ?_
        obtain ⟨r, s', rfl, rfl⟩ := done
        rfl
  · obtain ⟨out', s', rfl, rfl⟩ := done
    match out' with
    | .ok () => rfl
    | .error .panic => exact .inl trivial
    | .error (.errno e) =>
        refine Safe.bind ((forgetEach_ends fs s'.accepted).mono fun out T' done => ?_)
        rcases done with ⟨rfl, rfl⟩ | rfl
        · exact fun _ => rfl
        · exact .inl trivial

theorem release_ends (fs : NodeFs K) (ino fh : Nat) (caller : Caller) :
    (release fs ino fh caller).Safe (protocol X strict) 0 (Ends strict leaky fun _ => 0) :=
  releaseHandle_safe fileSections ino fh _

theorem releasedir_ends (fs : NodeFs K) (ino fh : Nat) (caller : Caller) :
    (releasedir fs ino fh caller).Safe (protocol X strict) 0 (Ends strict leaky fun _ => 0) :=
  releaseHandle_safe dirSections ino fh _

theorem lookup_ends (fs : NodeFs K) (caller : Caller) (parent : Nat) (name : OsStr) :
    (lookup fs caller parent name).Safe (protocol X strict) 0 (Ends strict False fun
      | .found e => .looked {e.ino}
      | .negative => 0) := by
  refine ends_bind (call_ends fun _ => rfl) fun id => ?_
  match id with
  | none => exact rfl
  | some id =>
      refine Safe.bind ((entryFor_ends fs id caller).mono fun out T' done => ?_)
      match out with
      | .ok e => exact done
      | .error (.errno e) => exact done
      | .error .panic => exact done

theorem create_ends (fs : NodeFs K) (caller : Caller) (parent : Nat) (name : OsStr)
    (mode umask flags : Nat) :
    (create fs caller parent name mode umask flags).Safe (protocol X strict) 0
      (Ends strict True fun r => .looked {r.1.ino}) := by
  refine ends_bind (call_ends fun _ => rfl) fun ⟨id, opened⟩ =>
    Safe.bind ((entryFor_safe fs id caller).mono fun out T' done => ?_)
  obtain ⟨done, ino⟩ := done
  match out with
  | .error (.errno e) => exact done
  | .error .panic => exact .inl trivial
  | .ok e =>
      cases done
      cases ino e rfl
      refine Safe.bind (Safe.bind ((addOpen_looked _).mono fun out T' done => ?_))
      match out with
      | .error (.errno e) => exact fun s => absurd s done
      | .error .panic => exact .inl trivial
      | .ok () =>
          cases done
          refine Safe.rtOp rfl fun r => ?_
          match r with
          | none => exact .inl trivial
          | some fh => exact zero_add _

end Runtime

/-! ## Requests -/

/-- The lookups a request gives back. -/
def Request.forgets : Request → Multiset NodeId
  | .forget ino nlookup => Multiset.replicate nlookup ino
  | _ => 0

/-- The requests that can panic with lookups in hand. -/
def Request.leaks : Request → Prop
  | .create _ _ _ _ _ _ => True
  | .readdirplus _ _ _ _ => True
  | _ => False

/-- The inodes of the entries in a reply that count a lookup each. -/
def Reply.retained : Reply → Multiset NodeId
  | .lookup (.found e) => {e.ino}
  | .entry e => {e.ino}
  | .created e _ => {e.ino}
  | .plusPage retained _ => retained
  | _ => 0

theorem pageSink_safe (ino : Nat) : Runtime.SinkSafe X strict (pageSink (K := K) ino) :=
  fun _ _ => Safe.idle rfl (fun _ => rfl) fun _ => ⟨rfl, _, rfl⟩

theorem plusPageSink_safe (ino : Nat) : Runtime.SinkSafe X strict (plusPageSink (K := K) ino) :=
  fun _ _ => Safe.idle rfl (fun _ => rfl) fun _ => ⟨rfl, _, rfl⟩

/-- The reply made of a part's result owes what the part owes. -/
theorem Ends.reply {p : Action K α} {f : α → Reply} {owed : α → Holdings}
    (safe : p.Safe (protocol X strict) T (Ends strict leaky owed))
    (same : ∀ a, owed a = .looked (f a).retained) :
    (p >>= fun a => .ret (f a)).Safe (protocol X strict) T
      (Ends strict leaky fun reply => .looked reply.retained) := by
  refine Safe.bind (safe.mono fun out T' done => ?_)
  match out with
  | .ok a => exact done.trans (same a)
  | .error (.errno e) => exact done
  | .error .panic => exact done

open TypedFuse.Runtime in
theorem Request.safe (fs : NodeFs K) (q : Request) :
    (q.run fs).Safe (protocol X strict) (.looked q.forgets)
      (Ends strict q.leaks fun reply => .looked reply.retained) := by
  cases q with
  | forget ino nlookup =>
      refine Safe.bind ((forget_settles fs ino nlookup).mono fun out T' done => ?_)
      obtain ⟨rfl, rfl | rfl⟩ := done
      · rfl
      · exact .inr rfl
  | statfs caller => exact Ends.reply (call_ends fun _ => rfl) fun _ => rfl
  | getattr ino fh caller =>
      exact Ends.reply (withNode_ends fun _ => withOptionalFile_ends fun _ =>
        call_ends fun _ => rfl) fun _ => rfl
  | setattr ino fh set caller =>
      exact Ends.reply (withNode_ends fun _ => withOptionalFile_ends fun _ =>
        call_ends fun _ => rfl) fun _ => rfl
  | readlink ino caller =>
      exact Ends.reply (withNode_ends fun _ => call_ends fun _ => rfl) fun _ => rfl
  | access ino mask caller =>
      exact Ends.reply (withNode_ends fun _ => call_ends fun _ => rfl) fun _ => rfl
  | setxattr ino name value flags caller =>
      exact Ends.reply (withNode_ends fun _ => call_ends fun _ => rfl) fun _ => rfl
  | getxattr ino name size caller =>
      exact Ends.reply (withNode_ends fun _ => call_ends fun _ => rfl) fun _ => rfl
  | listxattr ino size caller =>
      exact Ends.reply (withNode_ends fun _ => call_ends fun _ => rfl) fun _ => rfl
  | removexattr ino name caller =>
      exact Ends.reply (withNode_ends fun _ => call_ends fun _ => rfl) fun _ => rfl
  | «open» ino flags caller =>
      exact Ends.reply (withNode_ends fun _ => ends_bind (call_ends fun _ => rfl)
        (bindFile_ends ino)) fun _ => rfl
  | read ino fh offset size caller => exact Ends.reply (onFile_ends ino fh _) fun _ => rfl
  | write ino fh data offset caller => exact Ends.reply (onFile_ends ino fh _) fun _ => rfl
  | flush ino fh caller => exact Ends.reply (onFile_ends ino fh _) fun _ => rfl
  | fsync ino fh datasync caller => exact Ends.reply (onFile_ends ino fh _) fun _ => rfl
  | fallocate ino fh mode offset length caller =>
      exact Ends.reply (onFile_ends ino fh _) fun _ => rfl
  | lseek ino fh offset whence caller => exact Ends.reply (onFile_ends ino fh _) fun _ => rfl
  | getlk ino fh owner requested caller => exact Ends.reply (onFile_ends ino fh _) fun _ => rfl
  | setlk ino fh owner lock sleep caller => exact Ends.reply (onFile_ends ino fh _) fun _ => rfl
  | flock ino fh operation caller => exact Ends.reply (onFile_ends ino fh _) fun _ => rfl
  | release ino fh caller => exact Ends.reply (release_ends fs ino fh caller) fun _ => rfl
  | opendir ino flags caller =>
      exact Ends.reply (withNode_ends fun _ => ends_bind (call_ends fun _ => rfl)
        (bindDir_ends ino)) fun _ => rfl
  | readdir ino fh offset caller =>
      exact Ends.reply (readdir_ends fs ino fh caller (pageSink_safe ino) [] offset) fun _ => rfl
  | readdirplus ino fh offset caller =>
      exact Ends.reply (readdirplus_ends fs ino fh caller (plusPageSink_safe ino) [] offset)
        fun _ => rfl
  | fsyncdir ino fh datasync caller =>
      exact Ends.reply (withNode_ends fun _ => withDir_ends fun _ => call_ends fun _ => rfl)
        fun _ => rfl
  | releasedir ino fh caller => exact Ends.reply (releasedir_ends fs ino fh caller) fun _ => rfl
  | lookup parent name caller =>
      exact Ends.reply (lookup_ends fs caller parent name) fun r => by cases r <;> rfl
  | mknod parent name mode rdev umask caller =>
      exact Ends.reply (ends_bind (call_ends fun _ => rfl) fun id => entryFor_ends fs id caller)
        fun _ => rfl
  | mkdir parent name mode umask caller =>
      exact Ends.reply (ends_bind (call_ends fun _ => rfl) fun id => entryFor_ends fs id caller)
        fun _ => rfl
  | symlink parent name target caller =>
      exact Ends.reply (ends_bind (call_ends fun _ => rfl) fun id => entryFor_ends fs id caller)
        fun _ => rfl
  | link ino newparent newname caller =>
      exact Ends.reply (ends_bind (call_ends fun _ => rfl) fun id => entryFor_ends fs id caller)
        fun _ => rfl
  | unlink parent name caller => exact Ends.reply (call_ends fun _ => rfl) fun _ => rfl
  | rmdir parent name caller => exact Ends.reply (call_ends fun _ => rfl) fun _ => rfl
  | rename parent name newparent newname flags caller =>
      exact Ends.reply (call_ends fun _ => rfl) fun _ => rfl
  | create parent name mode umask flags caller =>
      exact Ends.reply (create_ends fs caller parent name mode umask flags) fun _ => rfl
  | copyFileRange ino offIn inoOut offOut len flags caller =>
      exact Ends.reply (call_ends fun _ => rfl) fun _ => rfl

end TypedFuse
