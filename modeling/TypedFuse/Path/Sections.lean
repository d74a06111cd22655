import TypedFuse.Lib.Sure
import TypedFuse.Path.Wiring
import TypedFuse.Runtime.HandleSafety

/-!
# What the adapter's callbacks do to names and nodes

One rule for each part of a callback of `PathNodeFs` that runs alone: how it changes the node table
and the namespace, which is all that the invariants of the adapter speak of.  Most parts are quiet
(`Quiet`): the names stay, and the table loses at most slots without links.  The others are the
sections of the namespace mutex: `insert_wp`, `removeDentry_wp`, `renameDentry_wp` and `addAlias_wp`.

The inner filesystem answers as it likes, within what `Allowed` permits.  With `strict` the rules
also rule out that `path_for` recurses without end.
-/

namespace TypedFuse

open Std Prog NodeTable PathNodeFs

variable {P : PathTypes} {F : Backing P} {O ε α : Type}

/-- The machine of the adapter's own state, as the runtime's filesystem. -/
abbrev adapter (F : Backing P) : Machine (pathTypes P).Ext := pathMachine F

abbrev PathWorld (F : Backing P) := World (pathTypes P) (adapter F).State

/-- The runtime's own invariant. -/
def Sane (w : PathWorld F) : Prop := ∃ T, World.Inv (X := adapter F) False w T

/-- Which steps a run may take. -/
abbrev Allowed (F : Backing P) := PathWorld F → (o : RtOp (pathTypes P)) → o.Res → Prop

/-- The names stay, and no slot with links goes. -/
structure Quiet (w w' : PathWorld F) : Prop where
  names : w'.ext.ns = w.ext.ns
  table : w.table.Trims w'.table

theorem Quiet.refl (w : PathWorld F) : Quiet w w := ⟨rfl, .refl _⟩

theorem Quiet.trans {w w' w'' : PathWorld F} (first : Quiet w w') (second : Quiet w' w'') :
    Quiet w w'' :=
  ⟨second.names.trans first.names, first.table.trans second.table⟩

/-- What an operation of a callback does when the callback runs alone. -/
def callbackStep (ok : Allowed F) :
    (o : CbOp (pathTypes P) O) → PathWorld F → o.Res → PathWorld F → Prop
  | .cx o, w, r, w' => (World.cxStep (adapter F) o w r w' ∧ ok w (.cx o) r) ∧ Sane w ∧ Sane w'
  | .offer _, w, _, w' => Quiet w w'

/-- The machine of callbacks that run alone. -/
abbrev callbacks (ok : Allowed F) (O : Type) : Machine (cbSig (pathTypes P) O) :=
  ⟨PathWorld F, callbackStep ok⟩

/-- The recursion that does not end, if it is to be kept away from. -/
def Diverges (strict : Prop) : CbOp (pathTypes P) O → Prop
  | .cx (.ext .diverge) => strict
  | _ => False

theorem not_diverges (o : CbOp (pathTypes P) O) : ¬Diverges False o := by
  unfold Diverges
  split <;> exact not_false

theorem Sane.tidy {w : PathWorld F} (sane : Sane w) : w.table.Tidy := by
  obtain ⟨T, inv⟩ := sane
  exact inv.held.tidy

/-! ## Quiet parts -/

section Quiet

variable {ok : Allowed F} {strict : Prop} {w : PathWorld F} {Q : Except ε α → PathWorld F → Prop}

/-- A condition that quiet steps keep. -/
def Closed (Q : Except ε α → PathWorld F → Prop) : Prop :=
  ∀ out w w', Q out w → Quiet w w' → Q out w'

/-- Every operation on the adapter's own state but `unlock` leaves the names alone. -/
theorem ext_quiet {e : PathOp P} {r : (CxOp.ext (K := pathTypes P) e).Res} {w' : PathWorld F}
    (step : World.cxStep (adapter F) (.ext e) w r w') (stays : ∀ ns, e ≠ .unlock ns) :
    w'.table = w.table ∧ w'.ext.ns = w.ext.ns := by
  obtain ⟨x, step, rfl⟩ := step
  refine ⟨rfl, ?_⟩
  cases e with
  | readLock | newListings | resume _ _ _ | push _ _ _ | takeEntryAttr _ | entriesEpoch _ =>
      obtain ⟨-, rfl⟩ := step
      rfl
  | writeLock | lock _ =>
      obtain ⟨-, -, rfl⟩ := step
      rfl
  | readUnlock | writeUnlock | setEntryAttr _ _ | entriesChanged _ | finish _ _ _ =>
      cases step
      rfl
  | unlock ns => exact absurd rfl (stays ns)
  | diverge => exact step.elim
  | inner c =>
      obtain ⟨b, -, rfl⟩ := step
      rfl
  | innerForget node =>
      obtain ⟨b, -, rfl⟩ := step
      rfl

theorem Quiet.of_eq {w' : PathWorld F} (same : w'.table = w.table ∧ w'.ext.ns = w.ext.ns) :
    Quiet w w' :=
  ⟨same.2, same.1 ▸ .refl _⟩

theorem get_quiet {id : NodeId} {r : (CxOp.get (K := pathTypes P) id).Res} {w' : PathWorld F}
    (step : World.cxStep (adapter F) (.get id) w r w') : Quiet w w' := by
  obtain ⟨rfl, rfl⟩ := step
  exact ⟨rfl, trims_get w.table id⟩

theorem drop_quiet {ref : NodeRef (PathNode P)} {r : (CxOp.drop (K := pathTypes P) ref).Res}
    {w' : PathWorld F} (step : World.cxStep (adapter F) (.drop ref) w r w')
    (tidy : w.table.Tidy) : Quiet w w' := by
  obtain ⟨-, rfl⟩ := step
  exact ⟨rfl, trims_dropRef tidy ref.lease⟩

/-- An operation on the adapter's own state that is not on its names. -/
def PathOp.isPlain : PathOp P → Bool
  | .unlock _ => false
  | .diverge => false
  | _ => true

theorem ext_wp {e : PathOp P} {k : e.Res → Body P O ε α} (plain : e.isPlain = true)
    (rest : ∀ r w', Quiet w w' → ok w (.cx (.ext e)) r →
      (k r).sure (callbacks ok O) (Diverges strict) Q w') :
    Prog.sure (callbacks ok O) (Diverges strict) (.op (.cx (.ext e)) k) Q w := by
  constructor
  · cases e with
    | diverge => cases plain
    | _ => exact not_false
  · intro r w' step
    have stays : ∀ ns, e ≠ .unlock ns := by
      rintro ns rfl
      cases plain
    exact rest r w' (.of_eq (ext_quiet step.1.1 stays)) step.1.2

theorem withRead_wp {body : Body P O ε α} (closed : Closed Q)
    (inside : ∀ w', Quiet w w' → body.sure (callbacks ok O) (Diverges strict) Q w') :
    (withRead body).sure (callbacks ok O) (Diverges strict) Q w := by
  refine ext_wp rfl fun _ w₁ quiet _ => sure.andFinally ((inside w₁ quiet).mono fun out w₂ done => ?_)
  exact ext_wp rfl fun _ w₃ quiet _ => ⟨rfl, closed out w₂ w₃ done quiet⟩

theorem withWrite_wp {body : Body P O ε α} (closed : Closed Q)
    (inside : ∀ w', Quiet w w' → body.sure (callbacks ok O) (Diverges strict) Q w') :
    (withWrite body).sure (callbacks ok O) (Diverges strict) Q w := by
  refine ext_wp rfl fun _ w₁ quiet _ => sure.andFinally ((inside w₁ quiet).mono fun out w₂ done => ?_)
  exact ext_wp rfl fun _ w₃ quiet _ => ⟨rfl, closed out w₂ w₃ done quiet⟩

theorem lock_wp {use : NamespaceUse} {k : Namespace → Body P O ε α}
    (rest : ∀ w', w'.table = w.table → w'.ext.ns = w.ext.ns →
      (k w.ext.ns).sure (callbacks ok O) (Diverges strict) Q w') :
    Prog.sure (callbacks ok O) (Diverges strict) (.op (.cx (.ext (.lock use))) k) Q w := by
  refine ⟨not_false, fun r w' step => ?_⟩
  obtain ⟨⟨⟨x, ⟨-, rfl, rfl⟩, rfl⟩, -⟩, -⟩ := step
  exact rest _ rfl rfl

theorem unlock_wp {ns : Namespace} {k : Unit → Body P O ε α}
    (rest : ∀ w', w'.table = w.table → w'.ext.ns = ns → ok w (.cx (.ext (.unlock ns))) () →
      (k ()).sure (callbacks ok O) (Diverges strict) Q w') :
    Prog.sure (callbacks ok O) (Diverges strict) (.op (.cx (.ext (.unlock ns))) k) Q w := by
  refine ⟨not_false, fun r w' step => ?_⟩
  obtain ⟨⟨⟨x, rfl, rfl⟩, allowed⟩, -⟩ := step
  exact rest _ rfl rfl allowed

/-- A scope with a node of the table. -/
theorem withNode_wp {id : NodeId} {body : PathNode P → Body P O Exit α}
    {Q : Except Exit α → PathWorld F → Prop} (closed : Closed Q)
    (fails : ∀ e w', Quiet w w' → Q (.error e) w')
    (inside : ∀ node w', Quiet w w' → (∃ slot : Slot (PathNode P),
      w'.table.map[id]? = some slot ∧ slot.record.payload = node) →
      (body node).sure (callbacks ok O) (Diverges strict) Q w') :
    (PathNodeFs.withNode id body).sure (callbacks ok O) (Diverges strict) Q w := by
  refine ⟨not_false, fun r w' step => ?_⟩
  have quiet := get_quiet step.1.1
  obtain ⟨⟨⟨rfl, rfl⟩, -⟩, -⟩ := step
  rcases get_cases w.table id with ⟨dead, eq⟩ | eq | ⟨slot, live, eq⟩
  · rw [eq] at quiet ⊢
    exact fails _ _ quiet
  · rw [eq] at quiet ⊢
    exact fails _ _ quiet
  · rw [eq] at quiet ⊢
    refine sure.andFinally ((inside slot.record.payload _ quiet ?_).mono fun out w₂ done => ?_)
    · refine ⟨{ slot with leases := slot.leases + 1 }, ?_, rfl⟩
      have held : ({ slot with leases := slot.leases + 1 } : Slot (PathNode P)).droppable = false :=
        Slot.held_iff.mpr (.inr (.inr (.inr (Nat.succ_ne_zero _))))
      rw [settle_map, if_pos rfl, held]
      rfl
    · refine ⟨not_false, fun r w₃ step => ?_⟩
      exact ⟨rfl, closed out w₂ w₃ done (drop_quiet step.1.1 step.2.1.tidy)⟩

theorem inner_wp {c : InnerCall P} {Q : Except Exit c.Val → PathWorld F → Prop}
    (answers : ∀ v w', Quiet w w' → ok w (.cx (.ext (.inner c))) (some (.ok v)) → Q (.ok v) w')
    (fails : ∀ e w', Quiet w w' → Q (.error e) w') : (inner c).sure (callbacks ok O) (Diverges strict) Q w := by
  refine ext_wp rfl fun r w' quiet allowed => ?_
  match r with
  | none => exact fails _ w' quiet
  | some (.error e) => exact fails _ w' quiet
  | some (.ok v) => exact answers v w' quiet allowed

/-! ## Paths -/

theorem nodeId_wp {node : PathNode P} {Q : Except ε (Option NodeId) → PathWorld F → Prop}
    (rest : ∀ w', Quiet w w' → Q (.ok (w.ext.ns.idForNode node.key)) w') :
    (nodeId node).sure (callbacks ok O) (Diverges strict) Q w :=
  lock_wp fun _ table _ => unlock_wp fun w₂ table' names' _ =>
    rest w₂ (.of_eq ⟨table'.trans table, names'⟩)

theorem pathFor_wp {id : NodeId} {Q : Except ε (Option Path) → PathWorld F → Prop}
    (ends : strict → w.ext.ns.pathFor id ≠ none)
    (rest : ∀ path w', Quiet w w' → w.ext.ns.pathFor id = some path → Q (.ok path) w') :
    (pathFor id).sure (callbacks ok O) (Diverges strict) Q w := by
  refine lock_wp fun w₁ table names => ?_
  cases way : w.ext.ns.pathFor id with
  | none => exact ⟨fun strict => ends strict way, nofun⟩
  | some path =>
      exact unlock_wp fun w₂ table' names' _ =>
        rest path w₂ (.of_eq ⟨table'.trans table, names'⟩) way

theorem nodePath_wp {node : PathNode P} {Q : Except ε (Option Path) → PathWorld F → Prop}
    (ends : strict → ∀ id, w.ext.ns.pathFor id ≠ none)
    (rest : ∀ path w', Quiet w w' → (∀ p, path = some p →
      ∃ id, w.ext.ns.keys[node.key]? = some id ∧ w.ext.ns.HasPath id p) → Q (.ok path) w') :
    (nodePath node).sure (callbacks ok O) (Diverges strict) Q w := by
  refine sure.bind (nodeId_wp fun w₁ quiet => ?_)
  cases keyed : w.ext.ns.idForNode node.key with
  | none => exact rest none w₁ quiet nofun
  | some id =>
      refine pathFor_wp (fun strict => quiet.names ▸ ends strict id) fun path w₂ quiet' way =>
        rest path w₂ (quiet.trans quiet') fun p found => ?_
      rw [quiet.names, found] at way
      exact ⟨id, keyed, Namespace.hasPath_iff.mpr way⟩

theorem path_wp {id : NodeId} {Q : Except Exit Path → PathWorld F → Prop}
    (ends : strict → ∀ id, w.ext.ns.pathFor id ≠ none)
    (found : ∀ p w', Quiet w w' → w.ext.ns.HasPath id p → Q (.ok p) w')
    (lost : ∀ e w', Quiet w w' → Q (.error e) w') :
    (PathNodeFs.path id).sure (callbacks ok O) (Diverges strict) Q w := by
  refine sure.bind (pathFor_wp (fun strict => ends strict id) fun path w₁ quiet way => ?_)
  match path with
  | none => exact lost _ w₁ quiet
  | some p => exact found p w₁ quiet (Namespace.hasPath_iff.mpr way)

end Quiet

/-! ## Sections of the namespace -/

section Sections

variable {ok : Allowed F} {strict : Prop} {w : PathWorld F} {d : Dentry}

/-- The operation `o` with the answer `r` was allowed in a world with the table and names of `w`. -/
def Permits (ok : Allowed F) (w : PathWorld F) (o : CxOp (pathTypes P)) (r : o.Res) : Prop :=
  ∃ w₁ : PathWorld F, w₁.table = w.table ∧ w₁.ext.ns = w.ext.ns ∧ ok w₁ (.cx o) r

/-- The names were allowed to be put back in some world. -/
def PutsBack (ok : Allowed F) (ns : Namespace) : Prop :=
  ∃ w : PathWorld F, ok w (.cx (.ext (.unlock ns))) ()

theorem insert_wp {state : P.NodeState} {Q : Except Exit (NodeId × Bool) → PathWorld F → Prop}
    (known : ∀ id w', Quiet w w' → w.ext.ns.byName[d]? = some id → Q (.ok (id, false)) w')
    (full : ∀ w' : PathWorld F, w'.table = w.table →
      w'.ext.ns = w.ext.ns ∨ w'.ext.ns = { w.ext.ns with nextKey := w.ext.ns.nextKey + 1 } →
      Q (.error .panic) w')
    (fresh : ∀ id (w' : PathWorld F), w.ext.ns.byName[d]? = none →
      (∃ given, w.table.Numbered given) →
      Permits ok w (.insert ⟨w.ext.ns.nextKey, state⟩ d.parent) (some id) →
      PutsBack ok (w.ext.ns.inserted d id (w.ext.ns.nextKey + 1)) →
      w.table.insert ⟨w.ext.ns.nextKey, state⟩ d.parent = (some id, w'.table) →
      w'.ext.ns = w.ext.ns.inserted d id (w.ext.ns.nextKey + 1) → Q (.ok (id, true)) w') :
    (PathNodeFs.insert d state).sure (callbacks ok O) (Diverges strict) Q w := by
  refine lock_wp fun w₁ table names => ?_
  cases name : w.ext.ns.byName[d]? with
  | some id =>
      exact unlock_wp fun w₂ table' names' _ => known id w₂ (.of_eq ⟨table'.trans table, names'⟩) name
  | none =>
      dsimp only
      cases add : checkedAdd 64 w.ext.ns.nextKey with
      | none =>
          exact unlock_wp fun w₂ table' names' _ => full w₂ (table'.trans table) (.inl names')
      | some next =>
          cases checkedAdd_eq_some add
          refine ⟨not_false, fun r w₂ step => ?_⟩
          obtain ⟨⟨⟨rfl, rfl⟩, allowed⟩, ⟨T, inv⟩, -⟩ := step
          have numbered := inv.numbered
          rw [table] at numbered allowed ⊢
          cases made : w.table.insert ⟨w.ext.ns.nextKey, state⟩ d.parent with
          | mk id t =>
              cases id with
              | none =>
                  exact unlock_wp fun w₃ table' names' _ =>
                    full w₃ (table'.trans (insert_eq_none made)) (.inr names')
              | some id =>
                  rw [made] at allowed
                  refine unlock_wp fun w₃ table' names' allowed' => fresh id w₃ name numbered
                    ⟨w₁, table, names, allowed⟩ ⟨_, allowed'⟩ ?_ names'
                  rw [made, table']

theorem removeDentry_wp {Q : Except ε Unit → PathWorld F → Prop}
    (unknown : ∀ w', Quiet w w' → w.ext.ns.byName[d]? = none → Q (.ok ()) w')
    (known : ∀ id (w' : PathWorld F), w.ext.ns.byName[d]? = some id → w.table.Tidy →
      Permits ok w (.removeLink id) () → w'.table = w.table.removeLink id →
      w'.ext.ns = (w.ext.ns.remove d).2 → Q (.ok ()) w') :
    (removeDentry d).sure (callbacks ok O) (Diverges strict) Q w := by
  refine lock_wp fun w₁ table names => ?_
  have first : (w.ext.ns.remove d).1 = w.ext.ns.byName[d]? := Namespace.remove_fst
  cases name : w.ext.ns.byName[d]? with
  | none =>
      rw [Namespace.remove_unknown name]
      exact unlock_wp fun w₂ table' names' _ => unknown w₂ (.of_eq ⟨table'.trans table, names'⟩) name
  | some id =>
      rw [name] at first
      cases removed : w.ext.ns.remove d with
      | mk gone ns =>
          rw [removed] at first
          cases first
          refine ⟨not_false, ?_⟩
          rintro r w₂ ⟨⟨rfl, allowed⟩, sane, -⟩
          have tidy := sane.tidy
          rw [table] at tidy
          refine unlock_wp fun w₃ table' names' _ =>
            known id w₃ name tidy ⟨w₁, table, names, allowed⟩ ?_ ?_
          · rw [table', ← table]
          · rw [names', removed]

theorem renameDentry_wp {old new : Dentry} {Q : Except ε Unit → PathWorld F → Prop}
    (nothing : ∀ w', Quiet w w' → w.ext.ns.rename old new = none → Q (.ok ()) w')
    (moved : ∀ replaced source ns (w' : PathWorld F),
      w.ext.ns.rename old new = some (replaced, source, ns) → w.table.Tidy →
      (∀ id, replaced = some id → Permits ok w (.removeLink id) ()) →
      PutsBack ok ns → w'.table = (replaced.elim w.table w.table.removeLink).reparent source new.parent →
      w'.ext.ns = ns → Q (.ok ()) w') :
    (renameDentry old new).sure (callbacks ok O) (Diverges strict) Q w := by
  refine lock_wp fun w₁ table names => ?_
  cases renamed : w.ext.ns.rename old new with
  | none =>
      exact unlock_wp fun w₂ table' names' _ =>
        nothing w₂ (.of_eq ⟨table'.trans table, names'⟩) renamed
  | some what =>
      obtain ⟨replaced, source, ns⟩ := what
      cases replaced with
      | none =>
          refine ⟨not_false, ?_⟩
          rintro r w₂ ⟨⟨rfl, -⟩, sane, -⟩
          refine unlock_wp fun w₃ table' names' allowed =>
            moved none source ns w₃ renamed (table ▸ sane.tidy) nofun ⟨_, allowed⟩ ?_ names'
          rw [table', ← table]
          rfl
      | some id =>
          refine ⟨not_false, ?_⟩
          rintro r w₂ ⟨⟨rfl, allowed⟩, sane, -⟩
          refine ⟨not_false, ?_⟩
          rintro r w₃ ⟨⟨rfl, -⟩, -⟩
          refine unlock_wp fun w₄ table' names' allowed' =>
            moved (some id) source ns w₄ renamed (table ▸ sane.tidy) ?_ ⟨_, allowed'⟩ ?_ names'
          · rintro _ ⟨⟩
            exact ⟨w₁, table, names, allowed⟩
          · rw [table', ← table]
            rfl

theorem addAlias_wp {id : NodeId} {Q : Except Exit NodeId → PathWorld F → Prop}
    (full : ∀ w' : PathWorld F, PutsBack ok (w.ext.ns.addAlias id d) →
      (∃ w₁ : PathWorld F, ok w₁ (.cx (.addLink id)) none) →
      w.table.addLink id = (none, w'.table) → w'.ext.ns = w.ext.ns.addAlias id d →
      Q (.error .panic) w')
    (done : ∀ w' : PathWorld F, PutsBack ok (w.ext.ns.addAlias id d) →
      w.table.addLink id = (some (), w'.table) → w'.ext.ns = w.ext.ns.addAlias id d →
      Q (.ok id) w') :
    (addAlias id d).sure (callbacks ok O) (Diverges strict) Q w := by
  refine lock_wp fun w₁ table names => unlock_wp fun w₂ table' names' allowed' => ⟨not_false, ?_⟩
  rintro r w₃ ⟨⟨⟨rfl, rfl⟩, allowed⟩, -⟩
  have same : w₂.table = w.table := table'.trans table
  rw [same] at allowed ⊢
  cases added : w.table.addLink id with
  | mk r t =>
      rw [added] at allowed
      cases r with
      | none => exact full _ ⟨_, allowed'⟩ ⟨w₂, allowed⟩ added names'
      | some _ => exact done _ ⟨_, allowed'⟩ added names'

end Sections

end TypedFuse
