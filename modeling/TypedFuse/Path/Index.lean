import TypedFuse.Path.Runs

/-!
# The index of the nodes by key

`keys` gets an entry with every node that is made, and nothing takes an entry out of it.  It is in
step with the node table between the requests of a run as long as no node is reclaimed
(`index_in_step`); the first that is leaves its entry behind (`reclaimed_key`).
-/

namespace TypedFuse

open Std Prog NodeTable

variable {P : PathTypes} {F : Backing P}

/-- The index has one entry for each live node, and no others. -/
def InStep (t : NodeTable (PathNode P)) (ns : Namespace) : Prop :=
  ∀ (key : Nat) (id : NodeId), ns.keys[key]? = some id ↔
    ∃ slot : Slot (PathNode P), t.map[id]? = some slot ∧ slot.record.payload.key = key

/-! ## Tables that lose no node -/

section Retains

variable {N : Type} {t t' t'' : NodeTable N} {slot slot' : Slot N} {id : NodeId}

/-- Every node of one table is in the other. -/
def NodeTable.keeps (t t' : NodeTable N) : Bool := t.map.keys.all fun id => t'.map.contains id

/-- Every node of one table is in the other, with the same record. -/
def NodeTable.Retains (t t' : NodeTable N) : Prop :=
  ∀ (id : NodeId) (slot : Slot N), t.map[id]? = some slot →
    ∃ slot' : Slot N, t'.map[id]? = some slot' ∧ slot'.record = slot.record

theorem NodeTable.Retains.refl (t : NodeTable N) : t.Retains t := fun _ slot live => ⟨slot, live, rfl⟩

theorem NodeTable.Retains.trans (first : t.Retains t') (second : t'.Retains t'') :
    t.Retains t'' := by
  intro id slot live
  obtain ⟨slot', live', record'⟩ := first id slot live
  obtain ⟨slot'', live'', record''⟩ := second id slot' live'
  exact ⟨slot'', live'', record''.trans record'⟩

theorem NodeTable.retains_of_keeps (kept : t.keeps t' = true)
    (old : ∀ (k : NodeId) (slot' : Slot N), t'.map[k]? = some slot' →
      ∃ slot : Slot N, t.map[k]? = some slot ∧ slot'.record = slot.record) : t.Retains t' := by
  intro id slot live
  have mem : id ∈ t.map.keys := by
    rw [ExtTreeMap.mem_keys, ExtTreeMap.mem_iff_isSome_getElem?, live]
    rfl
  have stays := List.all_eq_true.mp kept id mem
  rw [ExtTreeMap.contains_eq_isSome_getElem?] at stays
  obtain ⟨slot', live'⟩ := Option.isSome_iff_exists.mp stays
  obtain ⟨slot₀, live₀, record⟩ := old id slot' live'
  rw [live] at live₀
  cases live₀
  exact ⟨slot', live', record⟩

theorem NodeTable.Trims.retains (trims : t.Trims t') (kept : t.keeps t' = true) : t.Retains t' :=
  retains_of_keeps kept fun k slot' live' => by
    obtain ⟨slot, live, record, -⟩ := trims.same k slot' live'
    exact ⟨slot, live, record⟩

/-- A slot put back, still held. -/
theorem NodeTable.retains_settle (live : t.map[id]? = some slot) (record : slot'.record = slot.record)
    (held : slot'.droppable = false) : t.Retains (t.settle id slot') := by
  intro k s live'
  rw [settle_map]
  split
  · rename_i same
    subst same
    rw [live] at live'
    cases live'
    exact ⟨slot', by rw [held]; rfl, record⟩
  · exact ⟨s, live', rfl⟩

theorem NodeTable.retains_get (t : NodeTable N) (id : NodeId) : t.Retains (t.get id).2 := by
  rcases get_cases t id with ⟨-, eq⟩ | eq | ⟨slot, live, eq⟩
  · rw [eq]; exact .refl t
  · rw [eq]; exact .refl t
  · rw [eq]
    exact retains_settle live rfl (Slot.held_iff.mpr (.inr (.inr (.inr (Nat.succ_ne_zero _)))))

theorem NodeTable.retains_retainLookup (t : NodeTable N) (id : NodeId) :
    t.Retains (t.retainLookup id).2 := by
  rcases retainLookup_cases t id with ⟨-, eq⟩ | eq | ⟨slot, live, eq⟩
  · rw [eq]; exact .refl t
  · rw [eq]; exact .refl t
  · rw [eq]
    exact retains_settle live rfl (Slot.held_iff.mpr (.inr (.inl (Nat.succ_ne_zero _))))

theorem NodeTable.retains_addOpen (t : NodeTable N) (ino : Nat) : t.Retains (t.addOpen ino).2 := by
  rcases addOpen_cases t ino with ⟨-, eq⟩ | eq | ⟨slot, live, eq⟩
  · rw [eq]; exact .refl t
  · rw [eq]; exact .refl t
  · rw [eq]
    exact retains_settle live rfl
      (Slot.held_iff.mpr (.inr (.inr (.inl (Nat.succ_ne_zero _)))))

theorem NodeTable.retains_addLink (t : NodeTable N) (id : NodeId) : t.Retains (t.addLink id).2 := by
  rcases addLink_cases t id with ⟨-, eq⟩ | eq | ⟨slot, live, eq⟩
  · rw [eq]; exact .refl t
  · rw [eq]; exact .refl t
  · rw [eq]
    exact retains_settle live rfl (Slot.held_iff.mpr (.inl (Nat.succ_ne_zero _)))

theorem NodeTable.retains_reparent (tidy : t.Tidy) (id parent : NodeId) :
    t.Retains (t.reparent id parent) := by
  rcases reparent_cases tidy id parent with ⟨-, eq⟩ | ⟨slot, live, eq⟩
  · rw [eq]; exact .refl t
  · rw [eq]
    exact retains_settle live rfl (tidy id slot live)

theorem NodeTable.retains_insert {given : List (Nat × Nat)} (num : t.Numbered given) (payload : N)
    (parent : NodeId) : t.Retains (t.insert payload parent).2 := by
  cases made : t.insert payload parent with
  | mk r t' =>
      cases r with
      | none =>
          rw [insert_eq_none made]
          exact .refl t
      | some id =>
          obtain ⟨dead, generation, map⟩ := num.insert_map made
          intro k slot live
          have other : id ≠ k := by
            rintro rfl
            rw [dead] at live
            cases live
          exact ⟨slot, by rw [map, if_neg other, live], rfl⟩

end Retains

/-! ## Runs that reclaim no node -/

/-- The operation, if it lets go of a node, is not the last to do so. -/
def spares (w : PathWorld F) : (o : RtOp (pathTypes P)) → o.Res → Bool
  | .cx (.drop ref), _ => w.table.keeps (w.table.dropRef ref.lease)
  | .cx (.removeLink id), _ => w.table.keeps (w.table.removeLink id)
  | .dropRef ref, _ => w.table.keeps (w.table.dropRef ref.lease)
  | .beginForget ino nlookup, _ => w.table.keeps (w.table.beginForget ino nlookup).2
  | .maybeDrop id, _ => w.table.keeps (w.table.maybeDrop id)
  | .removeOpen ino, _ => w.table.keeps (w.table.removeOpen ino)
  | _, _ => true

/-- The steps of a run in which no node is reclaimed. -/
abbrev Sparing : Allowed F := fun w o r => spares w o r = true

section Sparing

variable {w w' : PathWorld F} {α ε : Type}

theorem Sparing.retains {o : RtOp (pathTypes P)} {r : o.Res}
    (step : (byItself Sparing).step o w r w') : w.table.Retains w'.table := by
  have tidy : w.table.Tidy := step.2.1.tidy
  have numbered : ∃ given, w.table.Numbered given := by
    obtain ⟨T, inv⟩ := step.2.1
    exact inv.numbered
  have spared : spares w o r = true := step.1.2
  have step : World.step (adapter F) o w r w' := step.1.1
  cases o with
  | cx o =>
      cases o with
      | get id => obtain ⟨-, rfl⟩ := step; exact retains_get _ _
      | drop ref => obtain ⟨-, rfl⟩ := step; exact (trims_dropRef tidy _).retains spared
      | contains id => obtain ⟨-, rfl⟩ := step; exact .refl _
      | insert payload parent =>
          obtain ⟨given, num⟩ := numbered
          obtain ⟨-, rfl⟩ := step
          exact retains_insert num _ _
      | reparent id parent => cases step; exact retains_reparent tidy _ _
      | addLink id => obtain ⟨-, rfl⟩ := step; exact retains_addLink _ _
      | removeLink id =>
          cases step
          refine retains_of_keeps spared fun k slot' live' => ?_
          obtain ⟨slot, live, record, -⟩ := removeLink_old tidy live'
          exact ⟨slot, live, record⟩
      | ext e => obtain ⟨x, -, rfl⟩ := step; exact .refl _
  | get id => obtain ⟨-, rfl⟩ := step; exact retains_get _ _
  | dropRef ref => cases step; exact (trims_dropRef tidy _).retains spared
  | retainLookup id => obtain ⟨-, rfl⟩ := step; exact retains_retainLookup _ _
  | beginForget ino n => obtain ⟨-, rfl⟩ := step; exact (trims_beginForget tidy _ _).retains spared
  | maybeDrop id =>
      cases step
      rw [maybeDrop_of_tidy tidy]
      exact .refl _
  | addOpen ino => obtain ⟨-, rfl⟩ := step; exact retains_addOpen _ _
  | removeOpen ino => cases step; exact (trims_removeOpen tidy _).retains spared
  | generationOf _ | parentOf _ | hasOpens _ =>
      obtain ⟨-, rfl⟩ := step
      exact .refl _
  | file o | dir o =>
      obtain ⟨_, -, rfl⟩ := step
      exact .refl _
  | addFile _ _ | addDir _ _ =>
      obtain ⟨-, rfl⟩ := step
      exact .refl _
  | offerDir _ _ | offerPlus _ _ => cases step; exact .refl _

/-- A node that the operation makes is in the table `t`. -/
def Outlives (t : NodeTable (PathNode P)) : (o : RtOp (pathTypes P)) → o.Res → Prop
  | .cx (.insert payload _), some id =>
    ∃ slot : Slot (PathNode P), t.map[id]? = some slot ∧ slot.record.payload = payload
  | _, _ => True

theorem Outlives.of_step {o : RtOp (pathTypes P)} {r : o.Res} {t : NodeTable (PathNode P)}
    (step : (byItself Sparing).step o w r w') (later : w'.table.Retains t) : Outlives t o r := by
  have numbered : ∃ given, w.table.Numbered given := by
    obtain ⟨T, inv⟩ := step.2.1
    exact inv.numbered
  have plain : World.step (adapter F) o w r w' := step.1.1
  clear step
  unfold Outlives
  split
  · rename_i payload parent id
    obtain ⟨given, num⟩ := numbered
    obtain ⟨made, rfl⟩ := plain
    obtain ⟨-, generation, map⟩ := num.insert_map (Prod.ext made.symm rfl)
    obtain ⟨slot, live, record⟩ := later id _ (by rw [map, if_pos rfl])
    exact ⟨slot, live, by rw [record]; rfl⟩
  · trivial

/-- What such a run makes is there at its end. -/
theorem Sparing.exec {p : Prog (rtSig (pathTypes P)) ε α} {out : Except ε α}
    (run : p.Exec (byItself Sparing) w out w') :
    p.Exec (byItself fun _ => Outlives w'.table) w out w' ∧ w.table.Retains w'.table := by
  induction p generalizing w with
  | ret a =>
      obtain ⟨rfl, rfl⟩ := run
      exact ⟨⟨rfl, rfl⟩, .refl _⟩
  | exit e =>
      obtain ⟨rfl, rfl⟩ := run
      exact ⟨⟨rfl, rfl⟩, .refl _⟩
  | op o k ih =>
      obtain ⟨r, w₁, step, rest⟩ := run
      obtain ⟨rest, later⟩ := ih r rest
      exact ⟨⟨r, w₁, ⟨⟨step.1.1, Outlives.of_step step later⟩, step.2⟩, rest⟩,
        (Sparing.retains step).trans later⟩

end Sparing

/-! ## The index -/

section Index

variable {t t' : NodeTable (PathNode P)} {ns ns' : Namespace} {q : Request} {w : PathWorld F}
  {past : Found F} {root : P.NodeState} {b : F.State}

/-- Every live node of `t` has its entry, and every entry has its node in `t'`. -/
structure Indexed (t' t : NodeTable (PathNode P)) (ns : Namespace) : Prop extends Keyed t ns where
  present : ∀ (key : Nat) (id : NodeId), ns.keys[key]? = some id →
    ∃ slot : Slot (PathNode P), t'.map[id]? = some slot ∧ slot.record.payload.key = key

theorem Indexed.inStep (indexed : Indexed t t ns) : InStep t ns := by
  intro key id
  constructor
  · exact indexed.present key id
  · rintro ⟨slot, live, rfl⟩
    exact indexed.keyed id slot live

theorem Indexed.new (node : PathNode P) (key : node.key = 1) :
    Indexed (.withRoot node) (.withRoot node) .new where
  toKeyed := .new node key
  present key' id known := by
    simp only [Namespace.new, ExtTreeMap.getElem?_insert] at known
    split at known
    · rename_i same
      rw [LawfulEqCmp.compare_eq_iff_eq] at same
      cases known
      exact ⟨_, by rw [withRoot_map, if_pos rfl], by rw [← same, ← key]; rfl⟩
    · simp at known

/-- The entries stay as they are. -/
theorem Indexed.of_keyed {t₁ : NodeTable (PathNode P)} (indexed : Indexed t' t ns)
    (keyed : Keyed t₁ ns') (keys : ns'.keys = ns.keys) : Indexed t' t₁ ns' where
  toKeyed := keyed
  present key id known := by
    rw [keys] at known
    exact indexed.present key id known

theorem Indexed.addAlias (indexed : Indexed t' t ns) (id : NodeId) (d : Dentry) :
    Indexed t' (t.addLink id).2 (ns.addAlias id d) :=
  indexed.of_keyed ((indexed.toKeyed.addLink id).addAlias id d) rfl

theorem Indexed.remove (indexed : Indexed t' t ns) (tidy : t.Tidy) (id : NodeId) (d : Dentry) :
    Indexed t' (t.removeLink id) (ns.remove d).2 :=
  indexed.of_keyed ((indexed.toKeyed.removeLink tidy id).remove d) Namespace.remove_keys

theorem indexed_stable : Stable fun (t : NodeTable (PathNode P)) ns => Indexed t' t ns :=
  fun _ _ _ indexed trims => indexed.of_keyed (indexed.toKeyed.trims trims) rfl

theorem indexed_grows :
    Grows (F := F) (fun _ => Outlives t')
      (fun (t : NodeTable (PathNode P)) ns => Indexed t' t ns) fun _ _ => True where
  stable := indexed_stable
  keyed indexed live := indexed.keyed _ _ live
  enters _ := trivial
  usedKey indexed := indexed.of_keyed indexed.toKeyed.usedKey rfl
  usedSpot _ := trivial
  insert indexed numbered _ _ permits _ made := by
    obtain ⟨-, -, -, slot, live, payload⟩ := permits
    refine ⟨⟨indexed.toKeyed.insert numbered made, fun key k known => ?_⟩, trivial⟩
    simp only [Namespace.inserted, ExtTreeMap.getElem?_insert, LawfulEqCmp.compare_eq_iff_eq] at known
    split at known
    · rename_i same
      cases known
      exact ⟨slot, live, by rw [payload, ← same]⟩
    · exact indexed.present key k known
  rollback _ _ indexed _ tidy _ _ := ⟨Indexed.remove indexed tidy _ _, trivial⟩

theorem indexed_alters :
    Alters (F := F) (fun _ => Outlives t') q
      (fun (t : NodeTable (PathNode P)) ns => Indexed t' t ns) fun t ns => Indexed t' t ns where
  before := indexed_stable
  after := indexed_stable
  le indexed := indexed
  keyed indexed live := indexed.keyed _ _ live
  removes indexed _ tidy _ := Indexed.remove indexed tidy _ _
  moves indexed renamed _ _ tidy _ _ := by
    refine indexed.of_keyed (indexed.toKeyed.rename tidy renamed) ?_
    obtain ⟨-, -, -, rfl⟩ := Namespace.rename_eq_some renamed
    exact Namespace.remove_keys.trans Namespace.remove_keys
  links := by
    intro id newparent newname _ _ _ _ indexed _ _ _ _ added
    have after := Indexed.addAlias indexed id ⟨newparent, newname⟩
    rwa [added] at after
  full := by
    intro id newparent newname _ _ _ _ indexed _ _ added
    have after := Indexed.addAlias indexed id ⟨newparent, newname⟩
    rwa [added] at after

theorem PathRun.indexed (ran : PathRun Sparing (PathNodeFs.world root b) past w) :
    Indexed w.table w.table w.ext.ns := by
  induction ran with
  | start => exact .new _ rfl
  | @call past w w' q out ran run ih =>
      -- Everything that has an entry is still there when the request has ended.
      obtain ⟨inside, -⟩ := ran.sane.request run
      obtain ⟨inside, retains⟩ := Sparing.exec inside
      have found : Indexed w'.table w.table w.ext.ns := by
        refine ⟨ih.toKeyed, fun key id known => ?_⟩
        obtain ⟨slot, live, rfl⟩ := ih.present key id known
        obtain ⟨slot', live', record⟩ := retains id slot live
        exact ⟨slot', live', by rw [record]⟩
      cases edits : q.edits with
      | true => exact (Request.changes indexed_alters edits found).exec inside
      | false => exact (Request.keeps indexed_grows q edits w found).exec inside

/-- Between the requests of a run that reclaims no node, the index is in step with the table. -/
theorem index_in_step (ran : PathRun Sparing (PathNodeFs.world root b) past w) :
    InStep w.table w.ext.ns :=
  ran.indexed.inStep

end Index

/-- A directory with a file in it that is linked under another name, which is then removed. -/
def indexPlayed : PathWorld (scripted grants) :=
  played grants true spares [.mkdir 1 [97] 0 0 nobody, .lookup 2 [120] nobody,
    .link 3 1 [98] nobody, .unlink 1 [98] nobody] (PathNodeFs.world () ())

theorem indexPlayed_inStep :
    ∃ past, PathRun Sparing (PathNodeFs.world () ()) past indexPlayed ∧
      indexPlayed.ext.ns.keys[3]? = some 3 ∧ InStep indexPlayed.table indexPlayed.ext.ns := by
  obtain ⟨past, ran⟩ : ∃ past, PathRun Sparing (PathNodeFs.world () ()) past indexPlayed :=
    played_run (by decide +kernel)
  exact ⟨past, ran, by decide +kernel, index_in_step ran⟩

/-- A file is found, removed and forgotten. -/
def unlisted : PathWorld (scripted grants) :=
  played grants true (fun _ _ _ => true) [.lookup 1 [97] nobody, .unlink 1 [97] nobody,
    .forget 2 1] (PathNodeFs.world () ())

/-- Its node is gone from the table, and its entry is not. -/
theorem reclaimed_key :
    ∃ past, PathRun (fun _ _ _ => True) (PathNodeFs.world () ()) past unlisted ∧
      unlisted.table.map[2]? = none ∧ unlisted.ext.ns.keys[2]? = some 2 ∧
      ¬InStep unlisted.table unlisted.ext.ns := by
  obtain ⟨past, ran⟩ :
      ∃ past, PathRun (fun _ _ _ => true = true) (PathNodeFs.world () ()) past unlisted :=
    played_run (by decide +kernel)
  have gone : unlisted.table.map[2]?.isNone = true := by decide +kernel
  have gone : unlisted.table.map[2]? = none := Option.isNone_iff_eq_none.mp gone
  have left : unlisted.ext.ns.keys[2]? = some 2 := by decide +kernel
  refine ⟨past, by simpa using ran, gone, left, fun inStep => ?_⟩
  obtain ⟨slot, live, -⟩ := (inStep 2 2).mp left
  rw [gone] at live
  cases live

end TypedFuse
