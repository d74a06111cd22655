import Mathlib.Algebra.BigOperators.Group.List.Defs
import TypedFuse.Path.Locks
import TypedFuse.Path.Runs

/-!
# Requests do not hold each other up

What a request may wait for is the `operations` lock, the namespace mutex and, in `close_and_take`,
the leases on a handle.  Requests take these in one order, so in every interleaving some request waits
for nothing, and all requests can be brought to their ends (`requests_complete`), unless a `path_for`
recurses for ever.
-/

namespace TypedFuse

open Std Prog PathNodeFs

variable {P : PathTypes} {F : Backing P}

/-! ## Some request can go on -/

/-- Every call of the wrapped filesystem returns. -/
structure Backing.Answers (F : Backing P) : Prop where
  call : ∀ (c : InnerCall P) (b : F.State), ∃ r b', F.call c b r b'
  forget : ∀ (node : PathNodeRef P) (b : F.State), ∃ r b', F.forget node b r b'

/-- The operation waits for nothing, in whatever order the `operations` lock serves those who wait
for it. -/
def Ready (w : PathWorld F) : RtOp (pathTypes P) → Prop
  | .cx (.drop ref) => ref.lease ∈ w.kept
  | .cx (.ext .readLock) => w.ext.writer = false ∧ w.ext.readers = 0
  | .cx (.ext .writeLock) => w.ext.writer = false ∧ w.ext.readers = 0
  | .cx (.ext (.lock _)) => w.ext.locked = false
  | .cx (.ext .diverge) => False
  | .file (.take fh) =>
    ∀ r : HandleRecord P.Handle, w.handles.files.records[fh]? = some r → r.active = 0
  | .dir (.take fh) =>
    ∀ r : HandleRecord (PathDirHandle P), w.handles.dirs.records[fh]? = some r → r.active = 0
  | _ => True

theorem Handles.goes_on {R : Type} {h : Handles R} {o : HandleOp} (guard : h.Guard o)
    (drained : ∀ fh, o = .take fh → ∀ r : HandleRecord R, h.records[fh]? = some r → r.active = 0) :
    ∃ r h', h.step o r h' := by
  cases o with
  | find fh => exact ⟨_, _, rfl, rfl⟩
  | acquire fh => exact ⟨_, _, rfl⟩
  | scan ino => exact ⟨_, _, rfl⟩
  | unlease fh => exact ⟨(), _, rfl⟩
  | remove ino fh => exact ⟨_, _, rfl⟩
  | close fh => exact ⟨(), _, rfl⟩
  | take fh =>
      obtain ⟨r, record, -, -⟩ := guard
      refine ⟨r.payload, h.put fh { r with taken := true }, ?_⟩
      show h.take fh = _
      rw [Handles.take, record]
      exact if_pos (drained fh rfl r record)

theorem Ready.goes_on {w : PathWorld F} {o : RtOp (pathTypes P)} (answers : F.Answers)
    (guard : World.Guard (X := adapter F) o w) (ready : Ready w o) :
    ∃ r w', World.step (adapter F) o w r w' := by
  cases o with
  | cx o =>
      cases o with
      | get id => exact ⟨_, _, rfl, rfl⟩
      | drop ref => exact ⟨(), _, ready, rfl⟩
      | contains id => exact ⟨_, _, rfl, rfl⟩
      | insert payload parent => exact ⟨_, _, rfl, rfl⟩
      | reparent id newParent => exact ⟨(), _, rfl⟩
      | addLink id => exact ⟨_, _, rfl, rfl⟩
      | removeLink id => exact ⟨(), _, rfl⟩
      | ext e =>
          have own : ∃ r x, PathState.step F e w.ext r x := by
            cases e with
            | readLock => exact ⟨(), _, ready.1, rfl⟩
            | writeLock => exact ⟨(), _, ready.1, ready.2, rfl⟩
            | lock use => exact ⟨_, _, ready, rfl, rfl⟩
            | diverge => exact ready.elim
            | readUnlock | writeUnlock | unlock _ | setEntryAttr _ _ | entriesChanged _
            | finish _ _ _ => exact ⟨(), _, rfl⟩
            | newListings | resume _ _ _ | push _ _ _ | takeEntryAttr _ | entriesEpoch _ =>
                exact ⟨_, _, rfl, rfl⟩
            | inner c =>
                obtain ⟨r, b, called⟩ := answers.call c w.ext.backing
                exact ⟨r, _, b, called, rfl⟩
            | innerForget node =>
                obtain ⟨r, b, called⟩ := answers.forget node w.ext.backing
                exact ⟨r, _, b, called, rfl⟩
          obtain ⟨r, x, step⟩ := own
          exact ⟨r, _, x, step, rfl⟩
  | file o =>
      have drained : ∀ fh, o = .take fh → ∀ r : HandleRecord P.Handle,
          w.handles.files.records[fh]? = some r → r.active = 0 := by
        intro fh same
        subst same
        exact ready
      obtain ⟨r, files, step⟩ := Handles.goes_on guard drained
      exact ⟨r, _, files, step, rfl⟩
  | dir o =>
      have drained : ∀ fh, o = .take fh → ∀ r : HandleRecord (PathDirHandle P),
          w.handles.dirs.records[fh]? = some r → r.active = 0 := by
        intro fh same
        subst same
        exact ready
      obtain ⟨r, dirs, step⟩ := Handles.goes_on guard drained
      exact ⟨r, _, dirs, step, rfl⟩
  | get _ | retainLookup _ | generationOf _ | parentOf _ | beginForget _ _ | addOpen _
  | hasOpens _ | addFile _ _ | addDir _ _ => exact ⟨_, _, rfl, rfl⟩
  | dropRef _ | maybeDrop _ | removeOpen _ => exact ⟨(), _, rfl⟩
  | offerDir _ _ | offerPlus _ _ => exact ⟨true, _, rfl⟩

/-- The account of a request that nobody holds back, among all accounts `all`. -/
def Grasp.Foremost (T all : Grasp) : Prop :=
  T.names ≠ 0 ∨ all.Nameless ∧ ¬T.Lockless ∨ all.Lockless ∧ ¬T.Bare ∨ all.Bare

/-- Who holds the namespace mutex waits for nothing; else who holds the `operations` lock waits for
nothing, and so on. -/
theorem Grasped.ready {w : PathWorld F} {T T' : Grasp} {o : RtOp (pathTypes P)}
    (grasped : Grasped w (T + T')) (foremost : T.Foremost (T + T')) (may : (grasps P).may T o)
    (ends : o ≠ .cx (.ext .diverge)) : Ready w o := by
  have unlocked : (T + T').Nameless → w.ext.locked = false := fun none => by
    have count := grasped.locked
    rw [show (T + T').names = 0 from none] at count
    by_contra held
    rw [Bool.not_eq_false] at held
    rw [held] at count
    cases count
  have unlent : (T + T').Lockless → w.ext.writer = false ∧ w.ext.readers = 0 := fun none => by
    have count := grasped.writer
    rw [none.writes] at count
    refine ⟨?_, grasped.readers.trans none.reads⟩
    by_contra held
    rw [Bool.not_eq_false] at held
    rw [held] at count
    cases count
  have free : T.Lockless → (T + T').Lockless := fun here => by
    rcases foremost with held | ⟨-, held⟩ | ⟨none, -⟩ | none
    · exact absurd here.names held
    · exact absurd here held
    · exact none
    · exact none.toLockless
  have bare : T.Bare → (T + T').Bare := fun here => by
    rcases foremost with held | ⟨-, held⟩ | ⟨-, held⟩ | none
    · exact absurd here.names held
    · exact absurd here.toLockless held
    · exact absurd here held
    · exact none
  cases o with
  | cx o =>
      cases o with
      | drop ref =>
          show ref.lease ∈ w.kept
          rw [grasped.kept]
          exact Multiset.mem_add.mpr (.inl may)
      | ext e =>
          cases e with
          | readLock => exact unlent (free may)
          | writeLock => exact unlent (free may)
          | lock use =>
              refine unlocked ?_
              have here : T.Nameless := may
              rcases foremost with held | ⟨none, -⟩ | ⟨none, -⟩ | none
              · exact absurd here held
              · exact none
              · exact none.names
              · exact none.names
          | diverge => exact absurd rfl ends
          | _ => trivial
      | _ => trivial
  | file o =>
      cases o with
      | take fh =>
          intro r record
          have most := grasped.files fh r record
          rw [(bare may).files, Multiset.count_zero] at most
          exact Nat.le_zero.mp most
      | _ => trivial
  | dir o =>
      cases o with
      | take fh =>
          intro r record
          have most := grasped.dirs fh r record
          rw [(bare may).dirs, Multiset.count_zero] at most
          exact Nat.le_zero.mp most
      | _ => trivial
  | _ => trivial

/-- If something is held, someone whom nobody holds back holds it. -/
theorem exists_foremost {accounts : List Grasp} (held : ¬accounts.sum.Bare) :
    ∃ T ∈ accounts, T.Foremost accounts.sum ∧ T ≠ 0 := by
  have holder : ∀ {A : Grasp → Prop}, A 0 → (∀ T T', A T → A T' → A (T + T')) →
      ¬A accounts.sum → ∃ T ∈ accounts, ¬A T ∧ T ≠ 0 := by
    intro A zero add none
    by_contra nobody
    refine none (List.sum_induction A (fun _ _ => add _ _) zero fun T mem => ?_)
    by_contra not
    refine nobody ⟨T, mem, not, fun eq => ?_⟩
    rw [eq] at not
    exact not zero
  have nameless : ∀ T T' : Grasp, T.Nameless → T'.Nameless → (T + T').Nameless :=
    fun T T' one two => by
      show T.names + T'.names = 0
      rw [show T.names = 0 from one, show T'.names = 0 from two]
  have lockless : ∀ T T' : Grasp, T.Lockless → T'.Lockless → (T + T').Lockless :=
    fun T T' one two => by
      refine ⟨?_, ?_, nameless T T' one.names two.names, ?_⟩
      · rw [Grasp.add_reads, one.reads, two.reads]
      · rw [Grasp.add_writes, one.writes, two.writes]
      · rw [Grasp.add_changed, one.changed, two.changed, add_zero]
  have bare : ∀ T T' : Grasp, T.Bare → T'.Bare → (T + T').Bare := fun T T' one two => by
    refine ⟨lockless T T' one.toLockless two.toLockless, ?_, ?_⟩
    · rw [Grasp.add_files, one.files, two.files, add_zero]
    · rw [Grasp.add_dirs, one.dirs, two.dirs, add_zero]
  by_cases free : accounts.sum.Nameless
  · by_cases unlent : accounts.sum.Lockless
    · obtain ⟨T, mem, not, some⟩ := holder Grasp.bare_zero bare held
      exact ⟨T, mem, .inr (.inr (.inl ⟨unlent, not⟩)), some⟩
    · obtain ⟨T, mem, not, some⟩ := holder Grasp.bare_zero.toLockless lockless unlent
      exact ⟨T, mem, .inr (.inl ⟨free, not⟩), some⟩
  · obtain ⟨T, mem, not, some⟩ := holder (A := Grasp.Nameless) rfl nameless free
    exact ⟨T, mem, .inl not, some⟩

/-- The requests of one runtime on a `PathNodeFs`. -/
abbrev PathPool (F : Backing P) := Pool (runtime (adapter F)) Exit Reply Request

/-- A request is in a `path_for` that goes on for ever. -/
def Recursing (c : PathPool F) : Prop :=
  ∃ t ∈ c.threads, ∃ k, t.2 = .op (.cx (.ext .diverge)) k

section Interleavings

variable {c c' : PathPool F} {tr : List (Label (rtSig (pathTypes P)) Request)}

/-- What holds in every interleaving. -/
def Going (c : PathPool F) : Prop :=
  c.Ok (protocol (adapter F) False) (fun _ _ _ => True) 0 ∧
    ∃ accounts, c.Balanced (grasps P) Grasped accounts

theorem Going.move {l : Label (rtSig (pathTypes P)) Request} (going : Going c)
    (move : Move (Request.run (pathNodeFs P)) c l c') : Going c' := by
  obtain ⟨ok, accounts, balanced⟩ := going
  obtain ⟨accounts', -, balanced'⟩ :=
    move.posts grasps_tied (fun q => q.restores 0 Grasp.bare_zero) balanced
  exact ⟨move.ok (fun q => Request.safe_unlooked _ q) ok, accounts', balanced'⟩

theorem balanced_new (root : P.NodeState) (b : F.State) :
    (⟨PathNodeFs.world root b, []⟩ : PathPool F).Balanced (grasps P) Grasped [] := by
  refine ⟨.nil, rfl, rfl, fun _ => rfl, rfl, fun fh r record => ?_, fun fh r record => ?_, rfl⟩
  · exact absurd (record : (∅ : ExtTreeMap Nat _)[fh]? = some r) (by simp)
  · exact absurd (record : (∅ : ExtTreeMap Nat _)[fh]? = some r) (by simp)

theorem Going.run {C : PathPool F → Label (rtSig (pathTypes P)) Request → Prop}
    (going : Going c) (run : Run (Request.run (pathNodeFs P)) C c tr c') : Going c' := by
  induction run with
  | nil => exact going
  | snoc _ _ move ih => exact ih.move move

/-- A request that is not at its end, and that nobody holds back. -/
theorem Going.goes_on (answers : F.Answers) (going : Going c) (ends : ¬Recursing c)
    (more : ¬c.Ended) : ∃ i o r c', Ready c.state o ∧
      Move (Request.run (pathNodeFs P)) c (.op i o r) c' := by
  obtain ⟨ok, accounts, balanced⟩ := going
  have found : ∃ T ∈ accounts, T.Foremost accounts.sum ∧ ∃ t ∈ c.threads,
      t.2.Heeds (grasps P) T (fun _ T' => T' = 0) ∧ ∃ o k, t.2 = .op o k := by
    by_cases held : accounts.sum.Bare
    · obtain ⟨t, open_⟩ := not_forall.mp more
      rw [Classical.not_imp] at open_
      obtain ⟨mem, going⟩ := open_
      obtain ⟨T, here, heeds⟩ := balanced.thread mem
      refine ⟨T, here, .inr (.inr (.inr held)), t, mem, heeds, ?_⟩
      cases prog : t.2 with
      | ret a => exact absurd ⟨.ok a, prog⟩ going
      | exit e => exact absurd ⟨.error e, prog⟩ going
      | op o k => exact ⟨o, k, rfl⟩
    · obtain ⟨T, here, foremost, some⟩ := exists_foremost held
      obtain ⟨t, mem, heeds⟩ := balanced.account here
      refine ⟨T, here, foremost, t, mem, heeds, ?_⟩
      cases prog : t.2 with
      | ret a =>
          rw [prog] at heeds
          exact absurd heeds some
      | exit e =>
          rw [prog] at heeds
          exact absurd heeds some
      | op o k => exact ⟨o, k, rfl⟩
  obtain ⟨T, here, foremost, t, mem, heeds, o, k, next⟩ := found
  obtain ⟨xs, ys, rfl⟩ := List.append_of_mem here
  have total : (xs ++ T :: ys).sum = T + (xs.sum + ys.sum) := by
    rw [List.sum_append, List.sum_cons, add_left_comm]
  have grasped : Grasped c.state (T + (xs.sum + ys.sum)) := total ▸ balanced.inv
  rw [next] at heeds
  have ready : Ready c.state o := by
    refine grasped.ready (total ▸ foremost) heeds.1 fun same => ?_
    subst same
    exact ends ⟨t, mem, k, next⟩
  obtain ⟨w, ts⟩ := c
  obtain ⟨q, p⟩ := t
  obtain ⟨before, after, rfl⟩ := List.append_of_mem mem
  have next : p = .op o k := next
  subst next
  obtain ⟨r, w', step⟩ := ready.goes_on answers ok.guard
  exact ⟨_, o, r, _, ready, .op step⟩

/-- Requests that are all at their ends hold nothing. -/
theorem Going.released (going : Going c) (ended : c.Ended) : Grasped c.state 0 := by
  obtain ⟨-, accounts, balanced⟩ := going
  have none : ∀ T ∈ accounts, T = 0 := fun T here => by
    obtain ⟨t, mem, heeds⟩ := balanced.account here
    obtain ⟨out, eq⟩ := ended t mem
    rw [eq] at heeds
    cases out with
    | ok a => exact heeds
    | error e => exact heeds
  have total : accounts.sum = 0 :=
    List.sum_induction (· = 0) (fun _ _ one two => by rw [one, two, add_zero]) rfl none
  exact total ▸ balanced.inv

end Interleavings

end TypedFuse
