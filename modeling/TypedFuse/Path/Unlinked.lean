import TypedFuse.Path.Runs
import TypedFuse.Runtime.Fallback

/-!
# Asking about a node without a handle

A `getattr` or `setattr` that comes without a handle number asks the wrapped filesystem about a node
by its path.  A node that was unlinked while it was open has no path left, and is asked about through
the newest handle still open on it: `wants_fallback_handle` and the callback look the path up one
after the other, and when requests run one after another both find the same
(`asked_by_path_or_newest`).
-/

namespace TypedFuse

open Std Prog PathNodeFs

variable {P : PathTypes} {F : Backing P} {ε α : Type}

/-- The path that the names give the node with this key. -/
def Namespace.nodePath (ns : Namespace) (key : Nat) : Option Path :=
  (ns.idForNode key).bind fun id => (ns.pathFor id).join

/-- What an operation of a callback without a sink does. -/
def ownStep : (o : CbOp (pathTypes P) Empty) → PathWorld F → o.Res → PathWorld F → Prop
  | .cx o, w, r, w' => World.cxStep (adapter F) o w r w'
  | .offer e, _, _, _ => nomatch e

/-- The machine of callbacks without a sink. -/
abbrev ownCallbacks (F : Backing P) : Machine (cbSig (pathTypes P) Empty) :=
  ⟨PathWorld F, ownStep⟩

/-! ## Calls that must not be made -/

section Calls

variable (good : InnerCall P → Prop)

/-- A call of the wrapped filesystem that is not `good`, in a callback. -/
def Misasks : CbOp (pathTypes P) Empty → Prop
  | .cx (.ext (.inner c)) => ¬good c
  | _ => False

/-- A call of the wrapped filesystem that is not `good`, in a request. -/
def Misasked : RtOp (pathTypes P) → Prop
  | .cx (.ext (.inner c)) => ¬good c
  | _ => False

variable {good} {w : PathWorld F}

theorem call_asks {cb : Prog (cbSig (pathTypes P) Empty) ε α}
    {Q : Except ε α → PathWorld F → Prop}
    (body : cb.sure (ownCallbacks F) (Misasks good) Q w) :
    (Runtime.call cb).sure (runtime (adapter F)) (Misasked good) Q w := by
  have ops : ∀ (o : CbOp (pathTypes P) Empty) (w : PathWorld F), ¬Misasks good o →
      (Runtime.cbOp (ε := ε) o).sure (runtime (adapter F)) (Misasked good)
        (fun out w' => ∃ r, out = .ok r ∧ ownStep o w r w') w := by
    intro o w asks
    cases o with
    | cx o =>
        have asked : ¬Misasked good (.cx o) := by
          cases o with
          | ext e => cases e with
            | inner c => exact asks
            | _ => exact not_false
          | _ => exact not_false
        exact ⟨asked, fun r w' step => ⟨r, rfl, step⟩⟩
    | offer e => exact nomatch e
  exact sure.interp ops body

/-- The lookup of a path leaves the names as they are and finds the path they give. -/
theorem nodePath_asks {node : PathNode P} {Q : Except ε (Option Path) → PathWorld F → Prop}
    (rest : ∀ w' : PathWorld F, w'.ext.ns = w.ext.ns →
      Q (.ok (w.ext.ns.nodePath node.key)) w') :
    (nodePath node).sure (ownCallbacks F) (Misasks good) Q w := by
  refine ⟨not_false, fun ns w₁ locked => ⟨not_false, fun _ w₂ unlocked => ?_⟩⟩
  obtain ⟨x, ⟨-, rfl, rfl⟩, rfl⟩ := locked
  obtain ⟨x, rfl, rfl⟩ := unlocked
  cases keyed : w.ext.ns.idForNode node.key with
  | none =>
      have path : w.ext.ns.nodePath node.key = none := by rw [Namespace.nodePath, keyed]; rfl
      have found := rest { w with ext := { w.ext with locked := false } } rfl
      rw [path] at found
      exact found
  | some id =>
      refine ⟨not_false, fun ns w₃ locked => ?_⟩
      obtain ⟨x, ⟨-, rfl, rfl⟩, rfl⟩ := locked
      have path : w.ext.ns.nodePath node.key = (w.ext.ns.pathFor id).join := by
        rw [Namespace.nodePath, keyed]
        rfl
      cases way : w.ext.ns.pathFor id with
      | none =>
          -- The recursion of `path_for` does not end, and no call is made.
          simp only [way]
          exact ⟨not_false, fun r => nomatch r⟩
      | some found =>
          simp only [way]
          refine ⟨not_false, fun _ w₄ unlocked => ?_⟩
          obtain ⟨x, rfl, rfl⟩ := unlocked
          rw [way] at path
          have done := rest { w with ext := { w.ext with locked := false } } rfl
          rw [path] at done
          exact done

theorem inner_asks {c : InnerCall P} (asks : good c) :
    (inner c : Body P Empty Exit c.Val).sure (ownCallbacks F) (Misasks good) (fun _ _ => True) w := by
  refine ⟨not_not_intro asks, fun r w' _ => ?_⟩
  match r with
  | none => trivial
  | some (.error e) => trivial
  | some (.ok v) => trivial

theorem onNode_asks {ref : PathNodeRef P} {f : PathNodeRef P → Body P Empty Exit α}
    (path : w.ext.ns.nodePath ref.node.key = ref.path)
    (asks : ∀ w', (f ref).sure (ownCallbacks F) (Misasks good) (fun _ _ => True) w') :
    (onNode ref.node f).sure (ownCallbacks F) (Misasks good) (fun _ _ => True) w := by
  refine ⟨not_false, fun _ w₁ locked => sure.andFinally (sure.bind ?_)⟩
  obtain ⟨x, ⟨-, rfl⟩, rfl⟩ := locked
  refine nodePath_asks fun w₂ _ => ?_
  rw [path]
  refine (asks w₂).mono fun _ w₃ _ => ?_
  exact ⟨not_false, fun _ w₄ _ => ⟨rfl, trivial⟩⟩

variable (good) in
theorem wants_asks {node : PathNode P} :
    (Runtime.callTotal ((pathNodeFs P).wantsFallbackHandle node)).sure (runtime (adapter F))
      (Misasked good) (fun out w' => w'.ext.ns = w.ext.ns ∧
        out = .ok (w.ext.ns.nodePath node.key).isNone) w :=
  sure.mapExit (call_asks (sure.bind (nodePath_asks fun _ names => ⟨names, rfl⟩)))

variable {ino : Nat} {node : PathNode P} {opened : List (OpenFile P.Handle)} {T : Holdings}

/-- The handle that goes with a call: none for a node with a path. -/
def Namespace.handleFor (ns : Namespace) (node : PathNode P) (newest : Option P.Handle) :
    Option P.Handle :=
  if ns.nodePath node.key = none then newest else none

theorem optionalFile_asks (inv : World.Inv (X := adapter F) False w T)
    (lists : Lists opened w.handles) :
    (Runtime.optionalFile (pathNodeFs P) ino node none).sure (runtime (adapter F))
      (Misasked good) (fun out w' => w'.ext.ns = w.ext.ns ∧ ∀ found, out = .ok found →
        found.map Prod.snd = w.ext.ns.handleFor node (newestOn ino opened)) w := by
  have safe : (Runtime.optionalFile (pathNodeFs P) ino node none).sure (runtime (adapter F))
      (Misasked good) (fun _ w' => w'.ext.ns = w.ext.ns) w := by
    refine ⟨not_false, fun asks w₁ step => ?_⟩
    obtain ⟨-, rfl⟩ := step
    cases asks with
    | false => exact rfl
    | true =>
        refine sure.bind ((wants_asks good).mono fun out w₂ done => ?_)
        obtain ⟨names, rfl⟩ := done
        cases wants : (w₁.ext.ns.nodePath node.key).isNone with
        | false => exact names
        | true =>
            refine ⟨not_false, fun r w₃ step => ?_⟩
            obtain ⟨files, -, rfl⟩ := step
            cases r with
            | none => exact names
            | some found => exact names
  have asked : ∀ wants w', (Runtime.callTotal ((pathNodeFs P).wantsFallbackHandle node)).Exec
      (runtime (adapter F)) w (.ok wants) w' → wants = (w.ext.ns.nodePath node.key).isNone := by
    intro wants w' run
    have done := (wants_asks good).exec run
    cases done.2
    rfl
  refine safe.of_exec fun out w' run => ⟨safe.exec run, fun found same => ?_⟩
  subst same
  unfold Namespace.handleFor
  rcases Runtime.optionalFile_inv lists inv run with ⟨none, same, -⟩ | ⟨declined, same⟩ |
    ⟨w₁, granted, files, wanted, newest, same, -⟩ | ⟨-, same⟩ | ⟨-, same⟩
  · cases same
    rw [none]
    simp
  · cases same
    have path := asked _ _ declined
    have named : w.ext.ns.nodePath node.key ≠ none := by
      intro none
      simp [none] at path
    rw [if_neg named]
    rfl
  · cases same
    have path := asked _ _ wanted
    have unnamed : w.ext.ns.nodePath node.key = none := by simpa using path.symm
    rw [if_pos unnamed, newest]
  · cases same
  · cases same

end Calls

/-- What `getattr` and `setattr` have in common. -/
theorem served_asks {good : InnerCall P → Prop} {w : PathWorld F} {ino : Nat}
    {opened : List (OpenFile P.Handle)} {T : Holdings} (lists : Lists opened w.handles)
    (inv : World.Inv (X := adapter F) False w T) {slot : Slot (PathNode P)}
    (live : w.table.map[ino]? = some slot)
    {f : PathNode P → Option P.Handle → Callback (pathTypes P) α}
    (asks : ∀ w' : PathWorld F, w'.ext.ns = w.ext.ns →
      (f slot.record.payload (w.ext.ns.handleFor slot.record.payload (newestOn ino opened))).sure
        (ownCallbacks F) (Misasks good) (fun _ _ => True) w') :
    (Runtime.withNode ino fun ref => Runtime.withOptionalFile (pathNodeFs P) ino ref.record.payload
      none fun h => Runtime.call (f ref.record.payload h)).sure (runtime (adapter F))
      (Misasked good) (fun _ _ => True) w := by
  refine sure.bind ⟨not_false, fun r w₁ step => ?_⟩
  obtain ⟨rfl, rfl⟩ := step
  have leased := inv.get ino
  rcases NodeTable.get_cases w.table ino with ⟨dead, eq⟩ | eq | ⟨slot', live', eq⟩
  · rw [dead] at live
    cases live
  · rw [eq]
    trivial
  · rw [live'] at live
    cases live
    rw [eq] at leased ⊢
    refine sure.andFinally (Q := fun _ _ => True) ?_
    refine sure.mono (Q := fun _ _ => True) ?_ fun _ _ _ => ⟨not_false, fun _ _ _ => ⟨rfl, trivial⟩⟩
    refine sure.bind ((optionalFile_asks leased lists).mono fun out w₂ done => ?_)
    obtain ⟨names, found⟩ := done
    cases out with
    | error e => trivial
    | ok chosen =>
        have handle := found chosen rfl
        cases chosen with
        | none =>
            have called := call_asks (asks w₂ names)
            rw [← handle] at called
            exact called
        | some lease =>
            have called := call_asks (asks w₂ names)
            rw [← handle] at called
            exact sure.andFinally (called.mono fun _ _ _ =>
              ⟨not_false, fun _ _ _ => ⟨rfl, trivial⟩⟩)

/-- After any calls run one after another, a `getattr` or `setattr` without a handle number makes no
call of the wrapped filesystem but the one it is for.  A node with a path is asked about by its path
alone, and a node without one through the newest handle still open on it. -/
theorem asked_by_path_or_newest {root : P.NodeState} {b : F.State} {w w' : PathWorld F}
    {past : Past (rtSig (pathTypes P))} (ran : Ran (adapter F) (PathNodeFs.world root b) past w)
    {ino : Nat} {slot : Slot (PathNode P)} (live : w.table.map[ino]? = some slot) (caller : Caller)
    (c : InnerCall P) :
    ((Runtime.getattr (pathNodeFs P) ino caller none).Meets (runtime (adapter F)) w
        (.cx (.ext (.inner c))) w' →
      c = .getattr ⟨w.ext.ns.nodePath slot.record.payload.key, slot.record.payload⟩
        (w.ext.ns.handleFor slot.record.payload (newestOn ino (openFiles past))) caller) ∧
    ∀ set, (Runtime.setattr (pathNodeFs P) ino caller none set).Meets (runtime (adapter F)) w
        (.cx (.ext (.inner c))) w' →
      c = .setattr ⟨w.ext.ns.nodePath slot.record.payload.key, slot.record.payload⟩
        (w.ext.ns.handleFor slot.record.payload (newestOn ino (openFiles past))) set caller := by
  obtain ⟨lists, T, inv⟩ := ran.lists ⟨.ret (), rfl, rfl⟩
  let ref : PathNodeRef P := ⟨w.ext.ns.nodePath slot.record.payload.key, slot.record.payload⟩
  let handle := w.ext.ns.handleFor slot.record.payload (newestOn ino (openFiles past))
  constructor
  · intro meets
    have inside : ∀ w₁ : PathWorld F, w₁.ext.ns = w.ext.ns →
        ((pathNodeFs P).getattr slot.record.payload handle caller).sure (ownCallbacks F)
          (Misasks fun c => c = .getattr ref handle caller) (fun _ _ => True) w₁ := by
      intro w₁ names
      have asks : ∀ w₂, (inner (.getattr ref handle caller) : Body P Empty Exit NodeAttr).sure
          (ownCallbacks F) (Misasks fun c => c = .getattr ref handle caller) (fun _ _ => True) w₂ :=
        fun w₂ => inner_asks rfl
      have path : w₁.ext.ns.nodePath ref.node.key = ref.path := by rw [names]
      exact onNode_asks (f := fun r => inner (.getattr r handle caller)) path asks
    have asks := served_asks (f := fun n h => (pathNodeFs P).getattr n h caller) lists inv live
      inside
    exact not_not.mp (asks.meets meets)
  · intro set meets
    have inside : ∀ w₁ : PathWorld F, w₁.ext.ns = w.ext.ns →
        ((pathNodeFs P).setattr slot.record.payload handle set caller).sure (ownCallbacks F)
          (Misasks fun c => c = .setattr ref handle set caller) (fun _ _ => True) w₁ := by
      intro w₁ names
      have asks : ∀ w₂, (inner (.setattr ref handle set caller) : Body P Empty Exit NodeAttr).sure
          (ownCallbacks F) (Misasks fun c => c = .setattr ref handle set caller) (fun _ _ => True) w₂ :=
        fun w₂ => inner_asks rfl
      have path : w₁.ext.ns.nodePath ref.node.key = ref.path := by rw [names]
      exact onNode_asks (f := fun r => inner (.setattr r handle set caller)) path asks
    have asks := served_asks (f := fun n h => (pathNodeFs P).setattr n h set caller) lists inv
      live inside
    exact not_not.mp (asks.meets meets)

/-! ## A file that is unlinked while it is open -/

/-- The types of a filesystem whose handles are numbers. -/
abbrev numberedPath : PathTypes := ⟨Unit, Nat, Unit⟩

/-- Every name can be looked up and unlinked, and the handle of a file is the flags it was opened
with. -/
def lends : (c : InnerCall numberedPath) → c.Res
  | .lookup _ _ _ => some (.ok (some ⟨⟨.regularFile, 0, 1⟩, ()⟩))
  | .open _ flags _ => some (.ok ⟨flags, {}⟩)
  | .unlink _ _ _ => some (.ok ())
  | _ => some (.error .ENOSYS)

def lendsExec (o : RtOp (pathTypes numberedPath)) (w : PathWorld (scripted lends)) :
    Option (o.Res × PathWorld (scripted lends)) :=
  scriptedExec lends true (fun _ _ _ => true) o w

theorem lendsExec_step (o : RtOp (pathTypes numberedPath)) (w : PathWorld (scripted lends))
    (r : o.Res) (w' : PathWorld (scripted lends)) (run : lendsExec o w = some (r, w')) :
    (runtime (adapter (scripted lends))).step o w r w' :=
  (scriptedExec_step run).1

/-- Calls played one after another. -/
def lendsRun : List Request → Past (rtSig (pathTypes numberedPath)) → PathWorld (scripted lends) →
    Option (Past (rtSig (pathTypes numberedPath)) × PathWorld (scripted lends))
  | [], past, w => some (past, w)
  | q :: rest, past, w =>
    ((q.run (pathNodeFs numberedPath)).traced past).play lendsExec w >>= fun (out, w') =>
      lendsRun rest (whole out) w'

theorem lendsRun_ran {qs : List Request} {past past' : Past (rtSig (pathTypes numberedPath))}
    {w₀ w w' : PathWorld (scripted lends)} (ran : Ran (adapter (scripted lends)) w₀ past w)
    (run : lendsRun qs past w = some (past', w')) : Ran (adapter (scripted lends)) w₀ past' w' := by
  induction qs generalizing past w with
  | nil =>
      cases run
      exact ran
  | cons q rest ih =>
      obtain ⟨⟨out, w₁⟩, played, run⟩ := Option.bind_eq_some_iff.mp run
      exact ih (.call ⟨pathNodeFs numberedPath, q⟩ out ran (play_exec lendsExec_step played)) run

/-- A file is found, opened twice and unlinked. -/
def lentRequests : List Request :=
  [.lookup 1 [97] nobody, .open 2 7 nobody, .open 2 8 nobody, .unlink 1 [97] nobody]

def lentPlayed : Past (rtSig (pathTypes numberedPath)) × PathWorld (scripted lends) :=
  (lendsRun lentRequests [] (PathNodeFs.world () ())).getD ([], PathNodeFs.world () ())

/-- It is asked about through the second handle. -/
theorem lentPlayed_asked : ∃ slot, lentPlayed.2.table.map[2]? = some slot ∧
    ∀ c w', (Runtime.getattr (pathNodeFs numberedPath) 2 nobody none).Meets
      (runtime (adapter (scripted lends))) lentPlayed.2 (.cx (.ext (.inner c))) w' →
    c = .getattr ⟨none, slot.record.payload⟩ (some 8) nobody := by
  have ran : Ran (adapter (scripted lends)) (PathNodeFs.world () ()) lentPlayed.1 lentPlayed.2 := by
    have done : (lendsRun lentRequests [] (PathNodeFs.world () ())).isSome = true := by decide +kernel
    obtain ⟨⟨past, w⟩, eq⟩ := Option.isSome_iff_exists.mp done
    rw [lentPlayed, eq]
    exact lendsRun_ran .start eq
  have live : lentPlayed.2.table.map[2]?.isSome = true := by decide +kernel
  have key : lentPlayed.2.table.map[2]?.all (fun slot => slot.record.payload.key = 2) = true := by
    decide +kernel
  obtain ⟨slot, live⟩ := Option.isSome_iff_exists.mp live
  rw [live] at key
  have key : slot.record.payload.key = 2 := by simpa using key
  have path : lentPlayed.2.ext.ns.nodePath slot.record.payload.key = none := by
    rw [key]
    decide +kernel
  have newest : newestOn 2 (openFiles lentPlayed.1) = some 8 := by decide +kernel
  refine ⟨slot, live, fun c w' meets => ?_⟩
  have asked := (asked_by_path_or_newest ran live nobody c).1 meets
  rw [Namespace.handleFor, path, if_pos rfl, newest] at asked
  exact asked

end TypedFuse
