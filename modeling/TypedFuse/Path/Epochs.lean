import TypedFuse.Path.FailedReads
import TypedFuse.Path.Progress

/-!
# Epochs

A directory read trusts a listing whose epoch is still the epoch of the directory.  Every call that
changes names in a directory is made under the exclusive lock and after the epoch was moved on, while
an epoch is read under the shared lock.  So an epoch that is read again unchanged says that no such
call was made in between, in whatever way requests are interleaved (`unchanged_of_epoch`), unless
2^64 changes have brought it back to where it was.
-/

namespace TypedFuse

open Std Prog PathNodeFs

variable {P : PathTypes} {F : Backing P}

/-- The move is on the epoch of the directory. -/
def movesOn (key : Nat) : Label (rtSig (pathTypes P)) Request → Bool
  | .op _ (.cx (.ext (.entriesChanged k))) _ => k == key
  | _ => false

/-- How often the epoch of the directory was moved on. -/
def moved (key : Nat) (tr : List (Label (rtSig (pathTypes P)) Request)) : Nat :=
  tr.countP (movesOn key)

theorem moved_snoc (key : Nat) (tr : List (Label (rtSig (pathTypes P)) Request))
    (l : Label (rtSig (pathTypes P)) Request) :
    moved key (tr ++ [l]) = moved key tr + if movesOn key l then 1 else 0 := by
  rw [moved, List.countP_append, List.countP_singleton]
  rfl

/-! ## Directories that are marked -/

/-- Epochs are moved on under the exclusive lock only. -/
def Grasp.Marked (T : Grasp) : Prop := T.changed ≠ 0 → 0 < T.writes

theorem Grasp.Marked.next {T : Grasp} {o : RtOp (pathTypes P)} (marked : T.Marked)
    (may : (grasps P).may T o) (r : o.Res) : ((grasps P).next T o r).Marked := by
  cases o with
  | cx o =>
      cases o with
      | ext e =>
          cases e with
          | writeUnlock => exact fun changed => absurd rfl changed
          | writeLock => exact fun _ => Nat.succ_pos T.writes
          | entriesChanged key => exact fun _ => may
          | _ => exact marked
      | _ => exact marked
  | _ => exact marked

/-- What a move adds to the directories that a request has marked. -/
theorem mem_changed_next {T : Grasp} {o : RtOp (pathTypes P)} {r : o.Res} {key i : Nat}
    (mem : key ∈ ((grasps P).next T o r).changed) :
    key ∈ T.changed ∨ movesOn key (.op i o r) = true := by
  cases o with
  | cx o =>
      cases o with
      | ext e =>
          cases e with
          | writeUnlock => exact absurd mem (Multiset.notMem_zero key)
          | entriesChanged k =>
              rcases Multiset.mem_cons.mp mem with same | mem
              · refine .inr ?_
                show (k == key) = true
                rw [same]
                exact beq_self_eq_true k
              · exact .inl mem
          | _ => exact .inl mem
      | _ => exact .inl mem
  | _ => exact .inl mem

/-- What a step does to the epoch of a directory. -/
theorem step_epoch {w w' : PathWorld F} {o : RtOp (pathTypes P)} {r : o.Res} (key i : Nat)
    (step : World.step (adapter F) o w r w') :
    w'.ext.epoch key =
      if movesOn key (.op i o r) then (w.ext.epoch key + 1) % 2 ^ 64 else w.ext.epoch key := by
  cases o with
  | cx o =>
      cases o with
      | ext e =>
          obtain ⟨x, step, rfl⟩ := step
          cases e with
          | entriesChanged k =>
              cases step
              show (w.ext.epochs.insert k ((w.ext.epoch k + 1) % 2 ^ 64)).getD key 0 =
                if (k == key) = true then _ else _
              rw [ExtTreeMap.getD_insert]
              by_cases same : k = key
              · subst same
                rw [if_pos (LawfulEqCmp.compare_eq_iff_eq.mpr rfl), if_pos (beq_self_eq_true k)]
              · rw [if_neg fun eq => same (LawfulEqCmp.compare_eq_iff_eq.mp eq),
                  if_neg fun eq => same (beq_iff_eq.mp eq)]
                rfl
          | readLock | newListings | resume _ _ _ | push _ _ _ | takeEntryAttr _ | entriesEpoch _ =>
              obtain ⟨-, rfl⟩ := step
              rfl
          | writeLock | lock _ =>
              obtain ⟨-, -, rfl⟩ := step
              rfl
          | readUnlock | writeUnlock | unlock _ | setEntryAttr _ _ | finish _ _ _ =>
              cases step
              rfl
          | diverge => exact step.elim
          | inner _ | innerForget _ =>
              obtain ⟨b, -, rfl⟩ := step
              rfl
      | get _ | drop _ | contains _ | insert _ _ | addLink _ =>
          obtain ⟨-, rfl⟩ := step
          rfl
      | reparent _ _ | removeLink _ =>
          cases step
          rfl
  | file _ | dir _ =>
      obtain ⟨_, -, rfl⟩ := step
      rfl
  | get _ | retainLookup _ | generationOf _ | parentOf _ | beginForget _ _ | addOpen _
  | hasOpens _ | addFile _ _ | addDir _ _ =>
      obtain ⟨-, rfl⟩ := step
      rfl
  | dropRef _ | maybeDrop _ | removeOpen _ | offerDir _ _ | offerPlus _ _ =>
      cases step
      rfl

/-! ## Runs -/

section Runs

variable {c c' : PathPool F} {accounts accounts' : List Grasp} {key e : Nat}
  {tr tr₁ tr₂ : List (Label (rtSig (pathTypes P)) Request)}
  {l : Label (rtSig (pathTypes P)) Request}

/-- The accounts of all requests, with epochs moved on only where the lock is held. -/
structure Booked (c : PathPool F) (accounts : List Grasp) : Prop where
  balanced : c.Balanced (grasps P) Grasped accounts
  marked : ∀ T ∈ accounts, T.Marked
  bounded : ∀ key, c.state.ext.epoch key < 2 ^ 64

/-- The epoch of a directory after a move. -/
theorem Move.epoch (move : Move (Request.run (pathNodeFs P)) c l c') (key : Nat) :
    c'.state.ext.epoch key =
      if movesOn key l then (c.state.ext.epoch key + 1) % 2 ^ 64 else c.state.ext.epoch key := by
  cases move with
  | start q => rfl
  | op step => exact step_epoch key _ step

theorem Booked.move (booked : Booked c accounts)
    (move : Move (Request.run (pathNodeFs P)) c l c') :
    ∃ accounts', (grasps P).Posts l accounts accounts' ∧ Booked c' accounts' := by
  obtain ⟨accounts', posts, balanced⟩ :=
    move.posts grasps_tied (fun q => q.restores 0 Grasp.bare_zero) booked.balanced
  refine ⟨accounts', posts, balanced, fun T mem => ?_, fun key => ?_⟩
  · cases l with
    | start q =>
        rw [show accounts' = accounts ++ [0] from posts] at mem
        rcases List.mem_append.mp mem with mem | mem
        · exact booked.marked T mem
        · rw [List.mem_singleton.mp mem]
          exact fun changed => absurd rfl changed
    | op i o r =>
        obtain ⟨xs, T', ys, rfl, -, may, rfl⟩ := posts
        rcases List.mem_append.mp mem with mem | mem
        · exact booked.marked T (List.mem_append_left _ mem)
        · rcases List.mem_cons.mp mem with rfl | mem
          · have old := booked.marked T' (List.mem_append_right xs List.mem_cons_self)
            exact old.next may r
          · exact booked.marked T (List.mem_append_right xs (List.mem_cons_of_mem _ mem))
  · rw [Move.epoch move key]
    split
    · exact Nat.mod_lt _ (by decide)
    · exact booked.bounded key

theorem booked_new (root : P.NodeState) (b : F.State) :
    Booked (F := F) ⟨PathNodeFs.world root b, []⟩ [] := by
  refine ⟨?_, fun T mem => absurd mem List.not_mem_nil, fun key => ?_⟩
  · exact balanced_new root b
  · show (∅ : ExtTreeMap Nat Nat).getD key 0 < 2 ^ 64
    rw [ExtTreeMap.getD_empty]
    decide

theorem Booked.run {C : PathPool F → Label (rtSig (pathTypes P)) Request → Prop}
    (booked : Booked c accounts) (run : Run (Request.run (pathNodeFs P)) C c tr c') :
    ∃ accounts', Booked c' accounts' := by
  induction run with
  | nil => exact ⟨accounts, booked⟩
  | snoc _ _ move ih =>
      obtain ⟨accounts₁, booked₁⟩ := ih
      obtain ⟨accounts₂, -, booked₂⟩ := booked₁.move move
      exact ⟨accounts₂, booked₂⟩

/-- While one request reads, no other is about to change names. -/
theorem Booked.unmarked (booked : Booked c accounts) {T : Grasp} (mem : T ∈ accounts)
    (reads : 0 < T.reads) : ∀ T' ∈ accounts, T'.changed = 0 := by
  intro T' mem'
  have part : ∀ {V : Grasp}, V ∈ accounts → V.reads ≤ accounts.sum.reads ∧
      V.writes ≤ accounts.sum.writes := fun {V} mem => by
    obtain ⟨xs, ys, eq⟩ := List.append_of_mem mem
    rw [eq, List.sum_append, List.sum_cons]
    simp only [Grasp.add_reads, Grasp.add_writes]
    omega
  by_contra changed
  have writes := booked.marked T' mem' changed
  have none := booked.balanced.inv.exclusive (by have := (part mem').2; omega)
  have some := (part mem).1
  omega

/-- What has become of a directory since its epoch was `e`. -/
structure Since (key e : Nat) (tr : List (Label (rtSig (pathTypes P)) Request)) (c : PathPool F)
    (accounts : List Grasp) : Prop where
  booked : Booked c accounts
  marks : ∀ T ∈ accounts, key ∈ T.changed → moved key tr ≠ 0
  epoch : c.state.ext.epoch key = (e + moved key tr) % 2 ^ 64
  calls : ∀ (i : Nat) (call : InnerCall P) (r : call.Res),
    .op i (.cx (.ext (.inner call))) r ∈ tr → key ∈ call.changes → moved key tr ≠ 0

theorem Since.move (since : Since key e tr c accounts)
    (move : Move (Request.run (pathNodeFs P)) c l c') :
    ∃ accounts', Since key e (tr ++ [l]) c' accounts' := by
  obtain ⟨accounts', posts, booked⟩ := since.booked.move move
  have grows : moved key tr ≠ 0 → moved key (tr ++ [l]) ≠ 0 := fun some => by
    rw [moved_snoc]
    omega
  refine ⟨accounts', booked, fun T mem changed => ?_, ?_, fun i call r mem changes => ?_⟩
  · cases l with
    | start q =>
        rw [show accounts' = accounts ++ [0] from posts] at mem
        rcases List.mem_append.mp mem with mem | mem
        · exact grows (since.marks T mem changed)
        · rw [List.mem_singleton.mp mem] at changed
          exact absurd changed (Multiset.notMem_zero key)
    | op i o r =>
        obtain ⟨xs, T', ys, rfl, -, may, rfl⟩ := posts
        rcases List.mem_append.mp mem with mem | mem
        · exact grows (since.marks T (List.mem_append_left _ mem) changed)
        · rcases List.mem_cons.mp mem with rfl | mem
          · rcases mem_changed_next (i := i) changed with old | new
            · exact grows (since.marks T' (List.mem_append_right xs List.mem_cons_self) old)
            · rw [moved_snoc, if_pos new]
              exact Nat.succ_ne_zero _
          · exact grows (since.marks T (List.mem_append_right xs (List.mem_cons_of_mem _ mem)) changed)
  · rw [Move.epoch move key, moved_snoc, since.epoch]
    split
    · rw [Nat.mod_add_mod, Nat.add_assoc]
    · rw [Nat.add_zero]
  · rcases List.mem_append.mp mem with mem | mem
    · exact grows (since.calls i call r mem changes)
    · -- the call that is made now comes after its mark
      cases List.mem_singleton.mp mem
      obtain ⟨xs, T, ys, rfl, -, may, -⟩ := posts
      exact grows (since.marks T (List.mem_append_right xs List.mem_cons_self) (may key changes))

theorem Since.run {C : PathPool F → Label (rtSig (pathTypes P)) Request → Prop}
    (since : Since key e [] c accounts) (run : Run (Request.run (pathNodeFs P)) C c tr c') :
    ∃ accounts', Since key e tr c' accounts' := by
  induction run with
  | nil => exact ⟨accounts, since⟩
  | snoc _ _ move ih =>
      obtain ⟨accounts', since'⟩ := ih
      exact since'.move move

/-- An epoch that has been read and is found again later: no call in between has changed names in the
directory, unless so many did that the counter has come round. -/
theorem unchanged_of_epoch {root : P.NodeState} {b : F.State} {i : Nat}
    (run : Run (Request.run (pathNodeFs P)) (fun _ _ => True)
      (⟨PathNodeFs.world root b, []⟩ : PathPool F)
      (tr₁ ++ .op i (.cx (.ext (.entriesEpoch key))) e :: tr₂) c)
    (few : moved key tr₂ < 2 ^ 64) (same : c.state.ext.epoch key = e) :
    moved key tr₂ = 0 ∧ ∀ (j : Nat) (call : InnerCall P) (r : call.Res),
      .op j (.cx (.ext (.inner call))) r ∈ tr₂ → key ∉ call.changes := by
  obtain ⟨c₁, c₂, before, -, move, after⟩ := run.split
  obtain ⟨accounts₁, booked₁⟩ := (booked_new root b).run before
  obtain ⟨accounts₂, posts, booked₂⟩ := booked₁.move move
  have answer : e = c₁.state.ext.epoch key ∧ c₂.state.ext.epoch key = c₁.state.ext.epoch key := by
    obtain ⟨step, -⟩ := move.op_inv
    obtain ⟨x, ⟨read, rfl⟩, eq⟩ := step
    exact ⟨read, by rw [eq]⟩
  have quiet : ∀ T ∈ accounts₂, T.changed = 0 := by
    obtain ⟨xs, T, ys, rfl, -, may, rfl⟩ := posts
    exact booked₂.unmarked (T := T) (List.mem_append_right xs List.mem_cons_self) may
  have bound : e < 2 ^ 64 := answer.1 ▸ booked₁.bounded key
  have start : Since key e [] c₂ accounts₂ := by
    refine ⟨booked₂, fun T mem changed => ?_, ?_, fun _ _ _ mem => absurd mem List.not_mem_nil⟩
    · rw [quiet T mem] at changed
      exact absurd changed (Multiset.notMem_zero key)
    · rw [answer.2, ← answer.1]
      exact (Nat.mod_eq_of_lt bound).symm
  obtain ⟨accounts, since⟩ := start.run after
  have none : moved key tr₂ = 0 := by
    have found := since.epoch
    rw [same] at found
    by_contra some
    by_cases wraps : e + moved key tr₂ < 2 ^ 64
    · rw [Nat.mod_eq_of_lt wraps] at found
      omega
    · rw [Nat.mod_eq_sub_mod (by omega), Nat.mod_eq_of_lt (by omega)] at found
      omega
  exact ⟨none, fun j call r mem changes => since.calls j call r mem changes none⟩

end Runs

/-- The root is opened, and read as far as the second look at its epoch. -/
def browsed : Option (List (Label (rtSig (pathTypes unitPath)) Request) ×
    PathPool (scripted unsteady)) :=
  Pool.play (scriptedExec unsteady true fun _ _ _ => true) (Request.run (pathNodeFs unitPath))
    (.start (.opendir 1 0 nobody) :: List.replicate 12 (.step 0) ++
      .start (.readdir 1 1 0 nobody) :: List.replicate 13 (.step 1))
    ⟨PathNodeFs.world () (), []⟩ []

def readsEpoch (key e : Nat) : Label (rtSig (pathTypes P)) Request → Bool
  | .op _ (.cx (.ext (.entriesEpoch k))) (r : Nat) => k == key && r == e
  | _ => false

theorem readsEpoch_eq {l : Label (rtSig (pathTypes P)) Request} {key e : Nat}
    (reads : readsEpoch key e l = true) :
    ∃ i, l = .op i (.cx (.ext (.entriesEpoch key))) e := by
  unfold readsEpoch at reads
  split at reads
  · rename_i i k r
    rw [Bool.and_eq_true, beq_iff_eq, beq_iff_eq] at reads
    obtain ⟨rfl, rfl⟩ := reads
    exact ⟨i, rfl⟩
  · cases reads

/-- The listing that was taken in between is up to date. -/
theorem browsed_unchanged : ∃ (tr₁ tr₂ : List (Label (rtSig (pathTypes unitPath)) Request))
    (c : PathPool (scripted unsteady)) (i : Nat),
    browsed = some (tr₁ ++ .op i (.cx (.ext (.entriesEpoch 1))) (0 : Nat) :: tr₂, c) ∧
      moved 1 tr₂ = 0 ∧ ∀ (j : Nat) (call : InnerCall unitPath) (r : call.Res),
        .op j (.cx (.ext (.inner call))) r ∈ tr₂ → 1 ∉ call.changes := by
  have played : (browsed.any fun r => r.1.any (readsEpoch 1 0) && decide (moved 1 r.1 = 0) &&
      decide (r.2.state.ext.epoch 1 = 0)) = true := by decide +kernel
  obtain ⟨⟨tr, c⟩, eq, test⟩ := (Option.any_eq_true _ _).mp played
  simp only [Bool.and_eq_true, decide_eq_true_eq, List.any_eq_true] at test
  obtain ⟨⟨⟨l, mem, reads⟩, none⟩, epoch⟩ := test
  obtain ⟨i, rfl⟩ := readsEpoch_eq reads
  obtain ⟨tr₁, tr₂, rfl⟩ := List.append_of_mem mem
  have run := Pool.play_run (M := runtime (adapter (scripted unsteady)))
    (fun _ _ _ _ step => (scriptedExec_step step).1) .nil eq
  have few : moved 1 tr₂ = 0 := by
    rw [moved, List.countP_append, List.countP_cons] at none
    exact (Nat.add_eq_zero_iff.mp (Nat.add_eq_zero_iff.mp none).2).1
  have bound : moved 1 tr₂ < 2 ^ 64 := by
    rw [few]
    decide
  exact ⟨tr₁, tr₂, c, i, eq, unchanged_of_epoch run bound epoch⟩

end TypedFuse
