import Mathlib.Algebra.GroupWithZero.Nat
import TypedFuse.Session.Shims

/-!
# Batched forgets

`forget_multi_shim` puts its panic boundary around the whole batch, `forget_shim` around one pair.
So they agree as long as no forget panics.  After a panic the batch gives up the pairs it has not
reached, and `batch_agrees_iff` says when that makes no difference: when those pairs would have done
nothing (`idle`).  `panicked_batch_differs` is a batch where it does.

The filesystem is seen through its forget callbacks alone: `notify` records a callback, and an
arbitrary `panics` decides from the callbacks before it which of them panic.
-/

namespace TypedFuse

open Std Prog NodeTable

variable {N : Type}

/-- A filesystem whose own operation is the notification of a forgotten node. -/
abbrev forgetTypes (N : Type) : FsTypes where
  Node := N
  Handle := Unit
  DirHandle := Unit
  Ext := ⟨N, fun _ => Option Unit⟩

def forgetFs (N : Type) : NodeFs (forgetTypes N) where
  getattr _ _ _ := .exit (.errno .ENOSYS)
  forget n := .op (.cx (.ext n)) fun
    | none => .exit .panicked
    | some _ => .ret ()

/-- The world of this filesystem keeps the callbacks made. -/
abbrev ForgetWorld (N : Type) := World (forgetTypes N) (List N)

def notify (panics : List N → N → Bool) (n : N) (made : List N) : Option (Option Unit × List N) :=
  some (if panics made n then none else some (), made ++ [n])

/-- What a shim run alone leaves behind. -/
def after (panics : List N → N → Bool) (p : Action (forgetTypes N) Sent) (w : ForgetWorld N) :
    Option (ForgetWorld N) :=
  (p.play (World.exec (notify panics) true) w).map Prod.snd

/-- What shims run one after another leave behind. -/
def afterAll (panics : List N → N → Bool) (ps : List (Action (forgetTypes N) Sent))
    (w : ForgetWorld N) : Option (ForgetWorld N) :=
  ps.foldlM (fun w p => after panics p w) w

/-! ## One forget -/

section Forget

variable (panics : List N → N → Bool) (w : ForgetWorld N) (ino nlookup : Nat)

/-- Whether `Runtime::forget` returns, and what it leaves behind. -/
def afterForget : Bool × ForgetWorld N :=
  match w.table.beginForget ino nlookup with
  | (none, table) => (false, { w with table })
  | (some none, table) => (true, { w with table })
  | (some (some (some ref)), table) =>
    (!panics w.ext ref.record.payload,
      { w with table := table.dropRef ref.lease, ext := w.ext ++ [ref.record.payload] })
  | (some (some none), table) => (true, { w with table := table.maybeDrop ino })

theorem play_callback (n : N) : (Runtime.callTotal ((forgetFs N).forget n)).play
    (World.exec (notify panics) true) w =
      some (if panics w.ext n then .error .panic else .ok (), { w with ext := w.ext ++ [n] }) := by
  -- the callback is its one operation, and what follows depends on the answer
  have answer : World.exec (notify panics) true (.cx (.ext n)) w =
      some (if panics w.ext n then none else some (), { w with ext := w.ext ++ [n] }) := rfl
  change (@Prog.op (rtSig (forgetTypes N)) Exit Unit (.cx (.ext n)) _).play _ w = _
  rw [play, answer]
  by_cases panic : panics w.ext n = true
  · rw [if_pos panic, if_pos panic]
    rfl
  · rw [if_neg panic, if_neg panic]
    rfl

theorem play_forget : (Runtime.forget (forgetFs N) ino nlookup).play
    (World.exec (notify panics) true) w =
      some (if (afterForget panics w ino nlookup).1 then .ok () else .error .panic,
        (afterForget panics w ino nlookup).2) := by
  unfold afterForget
  rw [Runtime.forget, play, World.exec]
  cases begin : w.table.beginForget ino nlookup with
  | mk r table =>
      rcases r with _ | _ | _ | ref
      · rfl
      · rfl
      · rfl
      · dsimp only
        rw [andFinally, play_bind, play_attempt, play_callback]
        dsimp only
        split <;> simp_all <;> rfl

theorem after_silent {p : Action (forgetTypes N) Unit} {out : Except Exit Unit}
    {w w' : ForgetWorld N} (played : p.play (World.exec (notify panics) true) w = some (out, w')) :
    after panics (Session.silent p) w = some w' := by
  rw [after, Session.silent, play_bind, play_attempt, played]
  rfl

end Forget

/-! ## Batches -/

section Batches

variable (panics : List N → N → Bool)

/-- What a batch leaves behind: it stops at the first panic. -/
def afterBatch : List (Nat × Nat) → ForgetWorld N → ForgetWorld N
  | [], w => w
  | (ino, nlookup) :: rest, w =>
    if (afterForget panics w ino nlookup).1 then afterBatch rest (afterForget panics w ino nlookup).2
    else (afterForget panics w ino nlookup).2

/-- What the pairs one by one leave behind. -/
def afterEach : List (Nat × Nat) → ForgetWorld N → ForgetWorld N
  | [], w => w
  | (ino, nlookup) :: rest, w => afterEach rest (afterForget panics w ino nlookup).2

theorem play_forgetAll (entries : List (Nat × Nat)) (w : ForgetWorld N) : ∃ out,
    (Session.forgetAll (forgetFs N) entries).play (World.exec (notify panics) true) w =
      some (out, afterBatch panics entries w) := by
  induction entries generalizing w with
  | nil => exact ⟨.ok (), rfl⟩
  | cons entry rest ih =>
      obtain ⟨ino, nlookup⟩ := entry
      rw [Session.forgetAll, play_bind, play_forget, afterBatch]
      cases returned : (afterForget panics w ino nlookup).1 with
      | false => exact ⟨.error .panic, rfl⟩
      | true => exact ih (afterForget panics w ino nlookup).2

theorem after_forgetMultiShim (entries : List (Nat × Nat)) (w : ForgetWorld N) :
    after panics (Session.forgetMultiShim (forgetFs N) entries) w =
      some (afterBatch panics entries w) := by
  obtain ⟨out, played⟩ := play_forgetAll panics entries w
  exact after_silent panics played

theorem afterAll_forgetShim (entries : List (Nat × Nat)) (w : ForgetWorld N) :
    afterAll panics (entries.map fun e => Session.forgetShim (forgetFs N) e.1 e.2) w =
      some (afterEach panics entries w) := by
  induction entries generalizing w with
  | nil => rfl
  | cons entry rest ih =>
      obtain ⟨ino, nlookup⟩ := entry
      rw [List.map_cons, afterAll, List.foldlM_cons, Session.forgetShim,
        after_silent panics (play_forget panics w ino nlookup)]
      exact ih (afterForget panics w ino nlookup).2

end Batches

/-! ## Pairs that do nothing -/

/-- A pair on a number that is not live, or on a node that something holds and that has no lookups to
forget. -/
def idle (t : NodeTable N) (ino nlookup : Nat) : Bool :=
  match t.map[ino]? with
  | none => true
  | some slot => !slot.droppable && (slot.lookups == 0 || nlookup == 0)

/-- No forget that panics leaves a pair behind that would do something. -/
def stopsIdle (panics : List N → N → Bool) : List (Nat × Nat) → ForgetWorld N → Bool
  | [], _ => true
  | (ino, nlookup) :: rest, w =>
    let (returned, w') := afterForget panics w ino nlookup
    if returned then stopsIdle panics rest w' else rest.all fun e => idle w'.table e.1 e.2

theorem NodeTable.put_self {t : NodeTable N} {ino : Nat} {slot : Slot N}
    (live : t.map[ino]? = some slot) : t.put ino slot = t := by
  have same : t.map.insert ino slot = t.map := by
    refine ExtTreeMap.ext_getElem? fun k => ?_
    rw [ExtTreeMap.getElem?_insert]
    split
    · rename_i eq
      rw [LawfulEqCmp.compare_eq_iff_eq] at eq
      rw [← eq, live]
    · rfl
  simp [put, same]

variable {panics : List N → N → Bool} {w : ForgetWorld N} {ino nlookup : Nat}

theorem afterForget_idle (none : idle w.table ino nlookup = true) :
    (afterForget panics w ino nlookup).2 = w := by
  unfold idle at none
  unfold afterForget beginForget
  cases live : w.table.map[ino]? with
  | none => rfl
  | some slot =>
      rw [live] at none
      simp only [Bool.and_eq_true, Bool.not_eq_true', Bool.or_eq_true, beq_iff_eq] at none
      obtain ⟨held, nothing⟩ := none
      have kept : slot.lookups - nlookup = slot.lookups := by omega
      have same : { slot with lookups := slot.lookups - nlookup } = slot := by rw [kept]
      have keeps : ¬(slot.lookups ≠ 0 ∧ slot.lookups - nlookup = 0) := by omega
      simp only [keeps, ↓reduceIte, same, put_self live]
      simp [maybeDrop, live, held]

theorem afterEach_idle {rest : List (Nat × Nat)}
    (none : rest.all (fun e => idle w.table e.1 e.2) = true) : afterEach panics rest w = w := by
  induction rest with
  | nil => rfl
  | cons entry rest ih =>
      rw [List.all_cons, Bool.and_eq_true] at none
      rw [afterEach, afterForget_idle none.1]
      exact ih none.2

/-! ## Pairs that do something -/

theorem NodeTable.put_settle {t : NodeTable N} {ino : Nat} {slot slot' : Slot N} :
    (t.put ino slot).settle ino slot' = t.settle ino slot' := by
  have same : (t.map.insert ino slot).insert ino slot' = t.map.insert ino slot' := by
    refine ExtTreeMap.ext_getElem? fun k => ?_
    simp only [ExtTreeMap.getElem?_insert]
    split <;> rfl
  simp [settle, put, same]

theorem afterForget_dead (dead : w.table.map[ino]? = none) :
    (afterForget panics w ino nlookup).2 = w := by
  unfold afterForget beginForget
  simp [dead]

/-- On a live inode every way through `forget` comes to one rewritten slot. -/
theorem afterForget_table {slot : Slot N} (live : w.table.map[ino]? = some slot) :
    (afterForget panics w ino nlookup).2.table =
      w.table.settle ino { slot with lookups := slot.lookups - nlookup } := by
  unfold afterForget beginForget
  rw [live]
  by_cases last : slot.lookups ≠ 0 ∧ slot.lookups - nlookup = 0
  · simp only [last, ↓reduceIte, and_self, ne_eq, not_false_eq_true]
    cases add : checkedAdd 32 slot.leases with
    | none =>
        have leased : slot.leases ≠ 0 := by
          intro zero
          simp [checkedAdd, zero] at add
        have held : ({ slot with lookups := 0 } : Slot N).droppable = false :=
          Slot.held_iff.mpr (.inr (.inr (.inr leased)))
        rw [settle_eq_put held]
    | some n =>
        cases checkedAdd_eq_some add
        dsimp only
        have leased : (w.table.put ino { slot with lookups := 0, leases := slot.leases + 1 }).map[ino]? =
            some { slot with lookups := 0, leases := slot.leases + 1 } := by simp [put_map]
        exact (dropRef_eq (r := ⟨ino, slot.record.ptr⟩) leased rfl).trans put_settle
  · simp only [last, ↓reduceIte]
    rfl

/-- What is left of an inode: nothing if it is not live, else one more than its lookups. -/
def remains (t : NodeTable N) (ino : Nat) : Nat :=
  match t.map[ino]? with
  | none => 0
  | some slot => slot.lookups + 1

theorem remains_afterForget_le (k : Nat) :
    remains (afterForget panics w ino nlookup).2.table k ≤ remains w.table k := by
  cases live : w.table.map[ino]? with
  | none => rw [afterForget_dead live]
  | some slot =>
      rw [afterForget_table live]
      unfold remains
      rw [settle_map]
      by_cases same : ino = k
      · rw [if_pos same, ← same, live]
        by_cases dropped : ({ slot with lookups := slot.lookups - nlookup } : Slot N).droppable = true
        · rw [if_pos dropped]
          exact Nat.zero_le _
        · rw [if_neg dropped]
          dsimp only
          omega
      · rw [if_neg same]

theorem remains_afterForget_lt (busy : idle w.table ino nlookup = false) :
    remains (afterForget panics w ino nlookup).2.table ino < remains w.table ino := by
  unfold idle at busy
  cases live : w.table.map[ino]? with
  | none => simp [live] at busy
  | some slot =>
      rw [afterForget_table live]
      unfold remains
      rw [settle_map, if_pos rfl, live]
      by_cases dropped : ({ slot with lookups := slot.lookups - nlookup } : Slot N).droppable = true
      · simp [dropped]
      · simp only [dropped, Bool.false_eq_true, ↓reduceIte]
        rw [Slot.droppable_iff] at dropped
        simp only [live, Bool.and_eq_false_iff, Bool.not_eq_false', Slot.droppable_iff,
          Bool.or_eq_false_iff, beq_eq_false_iff_ne] at busy
        dsimp only at dropped ⊢
        omega

theorem remains_afterEach_le (rest : List (Nat × Nat)) (k : Nat) (w : ForgetWorld N) :
    remains (afterEach panics rest w).table k ≤ remains w.table k := by
  induction rest generalizing w with
  | nil => exact le_rfl
  | cons entry rest ih => exact (ih _).trans (remains_afterForget_le k)

/-- Some pair that does something leaves its mark on the table. -/
theorem afterEach_busy {rest : List (Nat × Nat)}
    (busy : rest.all (fun e => idle w.table e.1 e.2) = false) :
    (afterEach panics rest w).table ≠ w.table := by
  induction rest with
  | nil => cases busy
  | cons entry rest ih =>
      rw [afterEach]
      cases first : idle w.table entry.1 entry.2 with
      | true =>
          rw [afterForget_idle first]
          simp only [List.all_cons, first, Bool.true_and] at busy
          exact ih busy
      | false =>
          intro same
          have less := @remains_afterForget_lt N panics w entry.1 entry.2 first
          have kept := @remains_afterEach_le N panics rest entry.1
            (afterForget panics w entry.1 entry.2).2
          rw [same] at kept
          omega

/-! ## When the two agree -/

theorem afterBatch_eq_iff (entries : List (Nat × Nat)) (w : ForgetWorld N) :
    ((afterBatch panics entries w).table = (afterEach panics entries w).table ∧
      (afterBatch panics entries w).ext = (afterEach panics entries w).ext) ↔
      stopsIdle panics entries w = true := by
  induction entries generalizing w with
  | nil => simp [afterBatch, afterEach, stopsIdle]
  | cons entry rest ih =>
      obtain ⟨ino, nlookup⟩ := entry
      rw [afterBatch, afterEach, stopsIdle]
      cases went : afterForget panics w ino nlookup with
      | mk returned w' =>
          cases returned with
          | true => exact ih w'
          | false =>
              simp only [Bool.false_eq_true, ↓reduceIte]
              cases quiet : rest.all fun e => idle w'.table e.1 e.2 with
              | true => simp [afterEach_idle quiet]
              | false =>
                  have marked := @afterEach_busy N panics w' rest quiet
                  simp [Ne.symm marked]

/-! ## The same, read off the table the batch starts from

The pairs handled so far are kept latest first. -/

section Start

variable (t : NodeTable N) (before : List (Nat × Nat))

/-- How many lookups of `ino` the pairs give back. -/
def given (ino : Nat) : Nat := ((before.filter (·.1 == ino)).map Prod.snd).sum

/-- What the pairs leave of the slot of `ino`. -/
def slotAfter (ino : Nat) : Option (Slot N) :=
  match t.map[ino]? with
  | none => none
  | some slot =>
    let slot' := { slot with lookups := slot.lookups - given before ino }
    if before.any (·.1 == ino) && slot'.droppable then none else some slot'

/-- The node whose last lookups a pair takes after `before`. -/
def lastTaken (e : Nat × Nat) : Option (Slot N) :=
  (slotAfter t before e.1).filter fun slot => slot.lookups != 0 && slot.lookups ≤ e.2

/-- The callback a pair makes: none if the lease for it cannot be counted. -/
def callbackOf (e : Nat × Nat) : Option N :=
  (lastTaken t before e).bind fun slot => (checkedAdd 32 slot.leases).map fun _ => slot.record.payload

def callbacksOf (t : NodeTable N) : List (Nat × Nat) → List N
  | [] => []
  | e :: before => callbacksOf t before ++ (callbackOf t before e).toList

/-- Whether the pair after `before` panics, in its callback or for want of a lease. -/
def pairPanics (panics : List N → N → Bool) (w : ForgetWorld N) (e : Nat × Nat) : Bool :=
  match lastTaken w.table before e with
  | none => false
  | some slot =>
    (checkedAdd 32 slot.leases).isNone ||
      panics (w.ext ++ callbacksOf w.table before) slot.record.payload

/-- A pair after `before` that does nothing. -/
def idleAfter (e : Nat × Nat) : Bool :=
  match slotAfter t before e.1 with
  | none => true
  | some slot => !slot.droppable && (slot.lookups == 0 || e.2 == 0)

/-- The first pair that panics, if one does, has only pairs behind it that do nothing. -/
def harmless (panics : List N → N → Bool) (w : ForgetWorld N) :
    List (Nat × Nat) → List (Nat × Nat) → Bool
  | _, [] => true
  | before, e :: rest =>
    if pairPanics before panics w e then rest.all (idleAfter w.table (e :: before))
    else harmless panics w (e :: before) rest

end Start

/-- The world `w'` is what the pairs `before` make of `w`. -/
structure ReachedBy (w : ForgetWorld N) (before : List (Nat × Nat)) (w' : ForgetWorld N) : Prop where
  slots : ∀ k, w'.table.map[k]? = slotAfter w.table before k
  made : w'.ext = w.ext ++ callbacksOf w.table before

theorem given_cons (e : Nat × Nat) (before : List (Nat × Nat)) (k : Nat) :
    given (e :: before) k = (if e.1 = k then e.2 else 0) + given before k := by
  unfold given
  by_cases same : e.1 = k <;> simp [same]

theorem slotAfter_nil (t : NodeTable N) (k : Nat) : slotAfter t [] k = t.map[k]? := by
  unfold slotAfter
  cases t.map[k]? <;> simp [given]

theorem slotAfter_cons (t : NodeTable N) (e : Nat × Nat) (before : List (Nat × Nat)) (k : Nat) :
    slotAfter t (e :: before) k =
      if e.1 = k then
        (slotAfter t before k).bind fun slot =>
          let slot' := { slot with lookups := slot.lookups - e.2 }
          if slot'.droppable then none else some slot'
      else slotAfter t before k := by
  unfold slotAfter
  cases t.map[k]? with
  | none => simp
  | some slot =>
      by_cases same : e.1 = k
      · have less : slot.lookups - (e.2 + given before k) = slot.lookups - given before k - e.2 := by
          omega
        simp only [given_cons, same, ↓reduceIte, less, List.any_cons, beq_self_eq_true,
          Bool.true_or, Bool.true_and]
        by_cases gone : (before.any (·.1 == k) &&
            ({ slot with lookups := slot.lookups - given before k } : Slot N).droppable) = true
        · rw [if_pos gone]
          simp only [Bool.and_eq_true, Slot.droppable_iff] at gone
          simp [Slot.droppable, gone]
        · rw [if_neg gone]
          rfl
      · have other : (e.1 == k) = false := by simpa using same
        have kept : given (e :: before) k = given before k := by simp [given_cons, same]
        simp only [kept, List.any_cons, other, Bool.false_or, same, ↓reduceIte]

theorem ReachedBy.refl (w : ForgetWorld N) : ReachedBy w [] w where
  slots k := (slotAfter_nil w.table k).symm
  made := (List.append_nil w.ext).symm

section Reached

variable {before : List (Nat × Nat)} {w' : ForgetWorld N}

theorem ReachedBy.pair (reached : ReachedBy w before w') (e : Nat × Nat) :
    (afterForget panics w' e.1 e.2).1 = !pairPanics before panics w e ∧
      (afterForget panics w' e.1 e.2).2.ext = w'.ext ++ (callbackOf w.table before e).toList := by
  unfold pairPanics callbackOf lastTaken afterForget beginForget
  rw [← reached.slots e.1, ← reached.made]
  cases w'.table.map[e.1]? with
  | none => simp
  | some slot =>
      by_cases last : slot.lookups ≠ 0 ∧ slot.lookups ≤ e.2
      · have zero : slot.lookups - e.2 = 0 := by omega
        cases add : checkedAdd 32 slot.leases with
        | none => simp [last, zero, add, Option.filter]
        | some n => simp [last, zero, add, Option.filter]
      · have keeps : ¬(slot.lookups ≠ 0 ∧ slot.lookups - e.2 = 0) := by omega
        simp only [keeps, ↓reduceIte]
        have apart : ¬(slot.lookups ≠ 0 ∧ slot.lookups ≤ e.2) := last
        simp [Option.filter, apart]

theorem ReachedBy.step (reached : ReachedBy w before w') (e : Nat × Nat) :
    ReachedBy w (e :: before) (afterForget panics w' e.1 e.2).2 where
  slots k := by
    rw [slotAfter_cons, ← reached.slots k]
    cases live : w'.table.map[e.1]? with
    | none =>
        rw [afterForget_dead live]
        split
        · rename_i same
          rw [← same, live]
          rfl
        · rfl
    | some slot =>
        rw [afterForget_table live, settle_map]
        split
        · rename_i same
          rw [← same, live]
          rfl
        · rfl
  made := by
    rw [(reached.pair e).2, reached.made, callbacksOf, List.append_assoc]

theorem ReachedBy.idle_eq (reached : ReachedBy w before w') (e : Nat × Nat) :
    idle w'.table e.1 e.2 = idleAfter w.table before e := by
  unfold idle idleAfter
  rw [reached.slots e.1]

theorem stopsIdle_eq (reached : ReachedBy w before w') (entries : List (Nat × Nat)) :
    stopsIdle panics entries w' = harmless panics w before entries := by
  induction entries generalizing before w' with
  | nil => rfl
  | cons e rest ih =>
      rw [stopsIdle, harmless]
      dsimp only
      rw [(reached.pair e).1, ih (reached.step e)]
      cases pairPanics before panics w e with
      | false => rfl
      | true => simp [(reached.step e).idle_eq]

end Reached

/-- A batch leaves the table and makes the callbacks that its pairs one by one do, exactly when the
first pair that panics, if one does, has only pairs behind it that do nothing. -/
theorem batch_agrees_iff (panics : List N → N → Bool) (entries : List (Nat × Nat))
    (w : ForgetWorld N) : ∃ batch each,
      after panics (Session.forgetMultiShim (forgetFs N) entries) w = some batch ∧
      afterAll panics (entries.map fun e => Session.forgetShim (forgetFs N) e.1 e.2) w = some each ∧
      ((batch.table = each.table ∧ batch.ext = each.ext) ↔ harmless panics w [] entries = true) := by
  rw [← stopsIdle_eq (ReachedBy.refl w) entries]
  exact ⟨_, _, after_forgetMultiShim panics entries w, afterAll_forgetShim panics entries w,
    afterBatch_eq_iff entries w⟩

/-- The root, and two unlinked nodes that the kernel still refers to. -/
def twoUnlinked : ForgetWorld Nat where
  table := { (NodeTable.withRoot 10) with
    map := ((NodeTable.withRoot 10).map.insert 2 ⟨⟨1, 20⟩, 0, 0, 1, 0, 0, NodeId.root⟩).insert 3
      ⟨⟨2, 30⟩, 0, 0, 1, 0, 0, NodeId.root⟩
    nextIno := 4
    nextPtr := 3 }
  kept := 0
  handles := HandleTable.new
  ext := []

/-- The first callback panics, and the batch never gets to the second node. -/
theorem panicked_batch_differs : ∃ batch each,
    after (fun _ n => n == 20) (Session.forgetMultiShim (forgetFs Nat) [(2, 1), (3, 1)])
      twoUnlinked = some batch ∧
    afterAll (fun _ n => n == 20)
      [Session.forgetShim (forgetFs Nat) 2 1, Session.forgetShim (forgetFs Nat) 3 1]
      twoUnlinked = some each ∧
    batch.ext = [20] ∧ each.ext = [20, 30] ∧
    batch.table.contains 3 = true ∧ each.table.contains 3 = false := by
  refine ⟨_, _, after_forgetMultiShim _ _ _, afterAll_forgetShim _ [(2, 1), (3, 1)] _, ?_⟩
  decide +kernel

end TypedFuse
