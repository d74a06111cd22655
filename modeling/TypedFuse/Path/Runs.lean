import TypedFuse.Path.Alone
import TypedFuse.Path.Coupling

/-!
# Requests to a path filesystem, one after another

`PathRun` is a run of requests to a `Runtime<PathNodeFs>`, each of which starts when the one before
has ended.  The wrapped filesystem answers as it likes, as far as the run's condition allows.

Between the requests of such a run the names and the nodes agree (`coupled_between_requests`), if
the wrapped filesystem makes no link under a name that the adapter knows.
-/

namespace TypedFuse

open Std Prog NodeTable

variable {P : PathTypes} {F : Backing P}

/-- The requests of a run, last one first, each with the state it found. -/
abbrev Found (F : Backing P) := List (PathWorld F × Request)

/-- Requests run one after another from `w₀`, each to its end, with steps that are `ok`. -/
inductive PathRun (ok : Allowed F) (w₀ : PathWorld F) : Found F → PathWorld F → Prop
  | start : PathRun ok w₀ [] w₀
  | call {past : Found F} {w w' : PathWorld F} (q : Request) (out : Except Exit Reply) :
    PathRun ok w₀ past w →
    (q.run (pathNodeFs P)).Exec ((runtime (adapter F)).restrict ok) w out w' →
    PathRun ok w₀ ((w, q) :: past) w'

section Runs

variable {ok : Allowed F} {w w' : PathWorld F} {past : Found F} {root : P.NodeState} {b : F.State}

theorem Sane.new : Sane (PathNodeFs.world (P := P) root b : PathWorld F) :=
  ⟨0, { new_inv (X := adapter F) _ _ with counted := nofun }⟩

/-- A request that finds the runtime's invariant keeps it at every step. -/
theorem Sane.request (sane : Sane w) {q : Request} {out : Except Exit Reply}
    (run : (q.run (pathNodeFs P)).Exec ((runtime (adapter F)).restrict ok) w out w') :
    (q.run (pathNodeFs P)).Exec (byItself ok) w out w' ∧ Sane w' := by
  obtain ⟨T, inv⟩ := sane
  have safe := Request.safe_unlooked (X := adapter F) (pathNodeFs P) q
  rw [← zero_add T] at inv
  have inside := Exec.within (G := protocol (adapter F) False) safe inv run
  obtain ⟨T', -, inv'⟩ := Safe.exec (G := protocol (adapter F) False) safe inv run.of_restrict
  exact ⟨inside, _, inv'⟩

/-- What such a request gets to, it gets to with the invariant at every step. -/
theorem Sane.meets (sane : Sane w) {q : Request} {o : RtOp (pathTypes P)}
    (meets : (q.run (pathNodeFs P)).Meets ((runtime (adapter F)).restrict ok) w o w') :
    (q.run (pathNodeFs P)).Meets (byItself ok) w o w' := by
  obtain ⟨T, inv⟩ := sane
  have safe := Request.safe_unlooked (X := adapter F) (pathNodeFs P) q
  rw [← zero_add T] at inv
  exact Meets.within (G := protocol (adapter F) False) safe inv meets

theorem Sane.callback (sane : Sane w) {ε α : Type} {cb : Prog (cbSig (pathTypes P) Empty) ε α}
    {out : Except ε α}
    (run : (Runtime.call cb).Exec ((runtime (adapter F)).restrict ok) w out w') :
    (Runtime.call cb).Exec (byItself ok) w out w' ∧ Sane w' := by
  obtain ⟨T, inv⟩ := sane
  have safe : (Runtime.call cb).Safe (protocol (adapter F) False) T _ := Runtime.call_safe cb
  rw [← add_zero T] at inv
  have inside := Exec.within (G := protocol (adapter F) False) safe inv run
  obtain ⟨T', -, inv'⟩ := Safe.exec (G := protocol (adapter F) False) safe inv run.of_restrict
  exact ⟨inside, _, inv'⟩

theorem PathRun.sane (ran : PathRun ok (PathNodeFs.world root b) past w) : Sane w := by
  induction ran with
  | start => exact .new
  | call q out _ run ih => exact (ih.request run).2

end Runs

/-! ## Names and nodes, whatever the filesystem answers -/

/-- No node gets more links than its counter can count. -/
def countable : (o : RtOp (pathTypes P)) → o.Res → Bool
  | .cx (.addLink _), r => r.isSome
  | _, _ => true

abbrev Countable : Allowed F := fun _ o r => countable o r = true

section Wired

variable {ok : Allowed F} {w : PathWorld F} {past : Found F} {q : Request}

theorem wired_stable : Stable fun (t : NodeTable (PathNode P)) ns => Wired t ns :=
  fun _ _ _ wired trims => wired.trims trims

theorem wired_grows :
    Grows ok (fun (t : NodeTable (PathNode P)) ns => Wired t ns) fun _ _ => True where
  stable := wired_stable
  keyed wired live := wired.keyed _ _ live
  enters _ := trivial
  usedKey wired := wired.usedKey
  usedSpot _ := trivial
  insert wired numbered _ _ _ _ made := ⟨Wired.insert wired numbered made, trivial⟩
  rollback _ _ wired _ tidy known _ := ⟨Wired.remove wired tidy known, trivial⟩

theorem wired_alters : Alters (F := F) Countable q (fun t ns => Wired t ns) fun t ns => Wired t ns where
  before := wired_stable
  after := wired_stable
  le wired := wired
  keyed wired live := wired.keyed _ _ live
  removes wired known tidy _ := Wired.remove wired tidy known
  moves wired renamed _ _ tidy _ _ := Wired.rename wired tidy renamed
  links _ wired placed _ _ _ added := by
    obtain ⟨slot, live⟩ := Wired.anchored_live wired placed.anchored
    exact Wired.addAlias wired live added
  full allowed := nomatch allowed

theorem PathRun.wired {root : P.NodeState} {b : F.State}
    (ran : PathRun Countable (PathNodeFs.world root b) past w) : Wired w.table w.ext.ns := by
  induction ran with
  | start => exact .new _ rfl
  | call q out ran run ih =>
      obtain ⟨inside, -⟩ := ran.sane.request run
      cases edits : q.edits with
      | true => exact (Request.changes wired_alters edits ih).exec inside
      | false => exact (Request.keeps wired_grows q edits _ ih).exec inside

end Wired

/-! ## Names and nodes agree -/

/-- The wrapped filesystem makes a link only under a name that the adapter does not know. -/
def freshLink (w : PathWorld F) : (o : RtOp (pathTypes P)) → o.Res → Bool
  | .cx (.ext (.inner (.link _ dir newname _))), some (.ok _) =>
    w.ext.ns.keys[dir.node.key]?.all fun newparent =>
      w.ext.ns.byName[Dentry.mk newparent newname]?.isNone
  | _, _ => true

/-- The steps of a run in which the two hold. -/
def fresh (w : PathWorld F) (o : RtOp (pathTypes P)) (r : o.Res) : Bool :=
  countable o r && freshLink w o r

abbrev Fresh : Allowed F := fun w o r => fresh w o r = true

/-- The record of the node that a `link` was asked to link. -/
def Request.operand (w : PathWorld F) : Request → Option Nat
  | .link ino _ _ _ => w.table.map[ino]?.map fun slot => slot.record.ptr
  | _ => none

/-- The node with this record was an operand of a `link`. -/
def Found.linked (past : Found F) (ptr : Nat) : Prop :=
  ∃ call ∈ past, call.2.operand call.1 = some ptr

section Coupled

variable {ok : Allowed F} {w : PathWorld F} {past : Found F} {linked : Nat → Prop} {q : Request}
  {t : NodeTable (PathNode P)} {ns : Namespace} {id : NodeId}

theorem coupled_stable : Stable fun (t : NodeTable (PathNode P)) ns => Coupled t ns linked :=
  fun _ _ _ coupled trims => coupled.trims trims

theorem coupled_grows :
    Grows ok (fun (t : NodeTable (PathNode P)) ns => Coupled t ns linked) fun _ _ => True where
  stable := coupled_stable
  keyed coupled live := coupled.keyed _ _ live
  enters _ := trivial
  usedKey coupled := coupled.usedKey
  usedSpot _ := trivial
  insert coupled numbered unknown _ _ _ made :=
    ⟨Coupled.insert coupled numbered unknown made, trivial⟩
  rollback _ _ coupled _ tidy known _ := ⟨Coupled.remove coupled tidy known, trivial⟩

/-- The request's own operand is linked from now on. -/
theorem coupled_alters :
    Alters (F := F) Fresh q
      (fun (t : NodeTable (PathNode P)) ns => Coupled t ns (Found.linked past) ∧ w.table.Trims t)
      (fun t ns => Coupled t ns (Found.linked ((w, q) :: past))) := by
  have more : ∀ ptr, Found.linked past ptr → Found.linked ((w, q) :: past) ptr :=
    fun ptr ⟨entry, mem, operand⟩ => ⟨entry, List.mem_cons_of_mem _ mem, operand⟩
  constructor
  case before => exact fun _ _ _ ⟨coupled, old⟩ trims => ⟨coupled.trims trims, old.trans trims⟩
  case after => exact coupled_stable
  case le => exact fun ⟨coupled, _⟩ => coupled.mono more
  case keyed => exact fun ⟨coupled, _⟩ live => coupled.keyed _ _ live
  case removes =>
      intro d id w' ⟨coupled, _⟩ known tidy _
      exact (coupled.mono more).remove tidy known
  case moves =>
      intro old new replaced source ns w' ⟨coupled, _⟩ renamed _ _ tidy _ _
      exact (coupled.mono more).rename tidy renamed
  case links =>
      intro id newparent newname caller t' w' eq ⟨coupled, old⟩ placed _ permitted _ added
      obtain ⟨w₀, source, dir, _, attr, names, key, allowed⟩ := permitted
      rw [names] at key
      have unknown : w'.ext.ns.byName[Dentry.mk newparent newname]? = none := by
        simpa [Fresh, fresh, countable, freshLink, key, names] using allowed
      obtain ⟨slot, live⟩ := coupled.anchored_live placed.anchored
      obtain ⟨slot₀, live₀, record, -⟩ := old.same id slot live
      refine (coupled.mono more).addAlias unknown live ⟨(w, q), List.mem_cons_self, ?_⟩ added
      simp [eq, Request.operand, live₀, record]
  case full => exact fun allowed => nomatch allowed

theorem PathRun.coupled {root : P.NodeState} {b : F.State}
    (ran : PathRun Fresh (PathNodeFs.world root b) past w) :
    Coupled w.table w.ext.ns (Found.linked past) := by
  induction ran with
  | start => exact .new _ rfl
  | @call past w w' q out ran run ih =>
      obtain ⟨inside, -⟩ := ran.sane.request run
      cases edits : q.edits with
      | true => exact (Request.changes coupled_alters edits ⟨ih, .refl _⟩).exec inside
      | false =>
          have kept := (Request.keeps coupled_grows q edits w ih).exec inside
          exact Coupled.mono kept fun ptr ⟨entry, mem, operand⟩ =>
            ⟨entry, List.mem_cons_of_mem _ mem, operand⟩

end Coupled

/-- A set whose members are all the same has at most one. -/
theorem size_le_one {s : ExtTreeSet Dentry} (same : ∀ d ∈ s, ∀ d' ∈ s, d' = d) : s.size ≤ 1 := by
  by_cases empty : s = ∅
  · simp [empty]
  · obtain ⟨d, mem⟩ : ∃ d, d ∈ s := by
      simpa [ExtTreeSet.eq_empty_iff_forall_not_mem] using empty
    have none_left : s.erase d = ∅ := by
      rw [ExtTreeSet.eq_empty_iff_forall_not_mem]
      intro d' mem'
      have kept := ExtTreeSet.mem_of_mem_erase mem'
      rw [same d mem d' kept] at mem'
      simp at mem'
    have size : (s.erase d).size = s.size - 1 := by
      rw [ExtTreeSet.size_erase, if_pos (ExtTreeSet.contains_iff_mem.mpr mem)]
    rw [none_left, ExtTreeSet.size_empty] at size
    omega

/-- Between requests: a name is of a node exactly if it is among the node's names, and no node is
listed without names; a live node has as many links as names, and the root one more; the node of a
name is live, and so is the root; a live node is found under its key; and a node that was never
linked has at most one name, in the directory its parent pointer shows. -/
theorem coupled_between_requests {root : P.NodeState} {b : F.State} {past : Found F}
    {w : PathWorld F} (ran : PathRun Fresh (PathNodeFs.world root b) past w) :
    ((∀ d id, w.ext.ns.byName[d]? = some id ↔ d ∈ w.ext.ns.names id) ∧
      ∀ (id : NodeId) (names : ExtTreeSet Dentry), w.ext.ns.aliases[id]? = some names → names ≠ ∅) ∧
    (∀ (id : NodeId) (slot : Slot (PathNode P)), w.table.map[id]? = some slot →
      slot.links = (w.ext.ns.names id).size + if id = NodeId.root then 1 else 0) ∧
    ((∀ (d : Dentry) (id : NodeId), w.ext.ns.byName[d]? = some id → id ∈ w.table.map) ∧
      NodeId.root ∈ w.table.map) ∧
    (∀ (id : NodeId) (slot : Slot (PathNode P)), w.table.map[id]? = some slot →
      w.ext.ns.keys[slot.record.payload.key]? = some id) ∧
    ∀ (id : NodeId) (slot : Slot (PathNode P)), w.table.map[id]? = some slot →
      ¬past.linked slot.record.ptr → (w.ext.ns.names id).size ≤ 1 ∧
        ∀ d ∈ w.ext.ns.names id, slot.parent = d.parent := by
  have coupled := ran.coupled
  have present : ∀ {id : NodeId}, (∃ slot : Slot (PathNode P), w.table.map[id]? = some slot) →
      id ∈ w.table.map := fun ⟨slot, live⟩ => by
    rw [ExtTreeMap.mem_iff_isSome_getElem?, live]
    rfl
  refine ⟨⟨coupled.coherent.mem, fun id names listed empty => ?_⟩, coupled.links,
    ⟨fun d id known => present (coupled.live d id (coupled.named d id known)), present coupled.root⟩, coupled.keyed,
    fun id slot live unlinked => ⟨?_, fun d mem => (coupled.single id slot live unlinked d mem).1⟩⟩
  · have some_left := coupled.coherent.inhabited id names listed
    rw [empty] at some_left
    simp at some_left
  · exact size_le_one fun d mem => (coupled.single id slot live unlinked d mem).2

/-! ## Running the adapter -/

section Play

variable {B : Type}

/-- The steps of the adapter as a function, for a wrapped filesystem that computes. -/
def PathState.exec (call : (c : InnerCall P) → B → Option (c.Res × B))
    (forget : PathNodeRef P → B → Option (Option Unit × B)) :
    (o : PathOp P) → PathState P B → Option (o.Res × PathState P B)
  | .readLock, x => if x.writer then none else some ((), { x with readers := x.readers + 1 })
  | .readUnlock, x => some ((), { x with readers := x.readers - 1 })
  | .writeLock, x =>
    if x.writer ∨ x.readers ≠ 0 then none else some ((), { x with writer := true })
  | .writeUnlock, x => some ((), { x with writer := false })
  | .lock _, x => if x.locked then none else some (x.ns, { x with locked := true })
  | .unlock ns, x => some ((), { x with ns, locked := false })
  | .diverge, _ => none
  | .setEntryAttr key attr, x => some ((), { x with entryAttr := x.entryAttr.insert key attr })
  | .takeEntryAttr key, x => some (x.entryAttr[key]?, { x with entryAttr := x.entryAttr.erase key })
  | .entriesChanged key, x =>
    some ((), { x with epochs := x.epochs.insert key ((x.epoch key + 1) % 2 ^ 64) })
  | .entriesEpoch key, x => some (x.epoch key, x)
  | .newListings, x => some (x.nextListings,
      { x.setListings x.nextListings {} with nextListings := x.nextListings + 1 })
  | .resume place generation start, x => some ((x.listingsAt place).resume generation start, x)
  | .push place epoch buffer, x => some ((x.listingsAt place).fresh epoch buffer,
      x.setListings place ((x.listingsAt place).push epoch buffer))
  | .finish place listing stop, x =>
    some ((), x.setListings place ((x.listingsAt place).finish listing stop))
  | .inner c, x => (call c x.backing).map fun (r, b) => (r, { x with backing := b })
  | .innerForget node, x => (forget node x.backing).map fun (r, b) => (r, { x with backing := b })

theorem PathState.exec_step {call : (c : InnerCall P) → F.State → Option (c.Res × F.State)}
    {forget : PathNodeRef P → F.State → Option (Option Unit × F.State)}
    (calls : ∀ c b r b', call c b = some (r, b') → F.call c b r b')
    (forgets : ∀ node b r b', forget node b = some (r, b') → F.forget node b r b') (o : PathOp P)
    (x : PathState P F.State) (r : o.Res) (x' : PathState P F.State)
    (run : PathState.exec call forget o x = some (r, x')) : PathState.step F o x r x' := by
  cases o with
  | readLock | writeLock =>
      simp only [PathState.exec] at run
      split at run
      · cases run
      · cases run
        simp_all [PathState.step]
  | lock use =>
      simp only [PathState.exec] at run
      split at run
      · cases run
      · rename_i free
        cases run
        exact ⟨by simpa using free, rfl, rfl⟩
  | diverge => cases run
  | readUnlock | writeUnlock | unlock _ | setEntryAttr _ _ | entriesChanged _ | finish _ _ _ =>
      cases run
      rfl
  | takeEntryAttr _ | entriesEpoch _ | newListings | resume _ _ _ | push _ _ _ =>
      cases run
      exact ⟨rfl, rfl⟩
  | inner c =>
      obtain ⟨⟨r, b⟩, called, eq⟩ := Option.map_eq_some_iff.mp run
      cases eq
      exact ⟨b, calls c _ _ b called, rfl⟩
  | innerForget node =>
      obtain ⟨⟨r, b⟩, called, eq⟩ := Option.map_eq_some_iff.mp run
      cases eq
      exact ⟨b, forgets node _ _ b called, rfl⟩

/-- A wrapped filesystem whose answers follow from the call. -/
abbrev scripted (answers : (c : InnerCall P) → c.Res) : Backing P where
  State := Unit
  call c _ r _ := r = answers c
  forget _ _ r _ := r = some ()

variable (answers : (c : InnerCall P) → c.Res) (took : Bool)

/-- The steps of the runtime on a scripted filesystem, as far as they pass a check. -/
def scriptedExec (check : PathWorld (scripted answers) → (o : RtOp (pathTypes P)) → o.Res → Bool)
    (o : RtOp (pathTypes P)) (w : PathWorld (scripted answers)) :
    Option (o.Res × PathWorld (scripted answers)) :=
  (World.exec (PathState.exec (fun c b => some (answers c, b)) fun _ b => some (some (), b)) took
    o w).filter fun r => check w o r.1

variable {answers took}
  {check : PathWorld (scripted answers) → (o : RtOp (pathTypes P)) → o.Res → Bool}
  {w w' : PathWorld (scripted answers)}

theorem scriptedExec_step {o : RtOp (pathTypes P)} {r : o.Res}
    (run : scriptedExec answers took check o w = some (r, w')) :
    ((runtime (adapter (scripted answers))).restrict fun w o r => check w o r = true).step o w r
      w' := by
  obtain ⟨run, checked⟩ := Option.filter_eq_some_iff.mp run
  refine ⟨World.exec_step (X := adapter (scripted answers)) ?_ run, checked⟩
  exact PathState.exec_step (F := scripted answers) (fun c _ r _ eq => by cases eq; rfl)
    fun _ _ _ _ eq => by cases eq; rfl

/-- A part of a request that is played to an end that passes a test. -/
theorem scripted_exec {α ε : Type} (took : Bool) (p : Prog (rtSig (pathTypes P)) ε α)
    (w : PathWorld (scripted answers)) (test : Except ε α × PathWorld (scripted answers) → Bool)
    (done : (p.play (scriptedExec answers took fun _ _ _ => true) w).any test = true) :
    ∃ out w', p.Exec (runtime (adapter (scripted answers))) w out w' ∧ test (out, w') = true := by
  obtain ⟨⟨out, w'⟩, played, passes⟩ := (Option.any_eq_true _ _).mp done
  have run : p.Exec ((runtime (adapter (scripted answers))).restrict fun _ _ _ => true = true) w out
      w' := play_exec (fun _ _ _ _ => scriptedExec_step) played
  exact ⟨out, w', run.of_restrict, passes⟩

variable (answers took check)

/-- Requests played one after another. -/
def playAll : List Request → PathWorld (scripted answers) → Option (PathWorld (scripted answers))
  | [], w => some w
  | q :: rest, w => (q.run (pathNodeFs P)).play (scriptedExec answers took check) w >>= fun r =>
    playAll rest r.2

variable {answers took check}

theorem playAll_run {qs : List Request} {past : Found (scripted answers)}
    {w₀ : PathWorld (scripted answers)}
    (ran : PathRun (fun w o r => check w o r = true) w₀ past w)
    (run : playAll answers took check qs w = some w') :
    ∃ past', PathRun (fun w o r => check w o r = true) w₀ past' w' := by
  induction qs generalizing past w with
  | nil =>
      cases run
      exact ⟨past, ran⟩
  | cons q rest ih =>
      obtain ⟨⟨out, w₁⟩, played, run⟩ := Option.bind_eq_some_iff.mp run
      exact ih (.call q out ran (play_exec (fun _ _ _ _ => scriptedExec_step) played)) run

variable (answers took check) in
/-- Where requests played one after another lead. -/
def played (qs : List Request) (w : PathWorld (scripted answers)) : PathWorld (scripted answers) :=
  (playAll answers took check qs w).getD w

theorem played_run {qs : List Request} {w₀ : PathWorld (scripted answers)}
    (done : (playAll answers took check qs w₀).isSome = true) :
    ∃ past, PathRun (fun w o r => check w o r = true) w₀ past (played answers took check qs w₀) := by
  obtain ⟨w, eq⟩ := Option.isSome_iff_exists.mp done
  rw [played, eq]
  exact playAll_run .start eq

end Play

/-! ## A filesystem that grants everything -/

/-- Every name can be looked up, made, removed, renamed and linked. -/
def grants : (c : InnerCall unitPath) → c.Res
  | .lookup _ _ _ => some (.ok (some ⟨⟨.regularFile, 0, 1⟩, ()⟩))
  | .mkdir _ _ _ _ _ => some (.ok ⟨⟨.directory, 0, 2⟩, ()⟩)
  | .unlink _ _ _ => some (.ok ())
  | .rmdir _ _ _ => some (.ok ())
  | .rename _ _ _ _ _ => some (.ok ())
  | .link _ _ _ _ => some (.ok ⟨.regularFile, 0, 2⟩)
  | _ => some (.error .ENOSYS)

/-- A file found under one name and linked under another. -/
def linkPlayed : PathWorld (scripted grants) :=
  played grants true fresh [.lookup 1 [97] nobody, .link 2 1 [98] nobody] (PathNodeFs.world () ())

/-- It has the two names and two links. -/
theorem linkPlayed_coupled : ∃ past slot, PathRun Fresh (PathNodeFs.world () ()) past linkPlayed ∧
    linkPlayed.table.map[2]? = some slot ∧ (linkPlayed.ext.ns.names 2).size = 2 ∧ slot.links = 2 := by
  obtain ⟨past, ran⟩ : ∃ past, PathRun Fresh (PathNodeFs.world () ()) past linkPlayed :=
    played_run (by decide +kernel)
  have live : linkPlayed.table.map[2]?.isSome = true := by decide +kernel
  obtain ⟨slot, live⟩ := Option.isSome_iff_exists.mp live
  obtain ⟨-, links, -⟩ := coupled_between_requests ran
  have size : (linkPlayed.ext.ns.names 2).size = 2 := by decide +kernel
  refine ⟨past, slot, ran, live, size, ?_⟩
  rw [links 2 slot live, size]
  rfl

end TypedFuse
