import TypedFuse.Path.Runs

/-!
# Names and their directories

A name is kept under the inode number of its directory, which the runtime gives out again once the
directory is gone.  `names_rooted` says when every name is still under the directory it was recorded
in: as long as no directory loses its last name while the adapter knows names inside it.  The
adapter does not see to that, and `leftover_name` is where a name is left behind.
-/

namespace TypedFuse

open Std Prog NodeTable

variable {P : PathTypes} {F : Backing P}

/-- No node loses its last link while the adapter knows names inside it. -/
def childless (w : PathWorld F) : (o : RtOp (pathTypes P)) → o.Res → Bool
  | .cx (.removeLink id), _ =>
    (w.table.map[id]?.all fun slot => slot.links != 1) ||
      w.ext.ns.byName.keys.all fun d => d.parent != id
  | _, _ => true

/-- The steps of a run in which this holds and link counts do not overflow. -/
def orderly (w : PathWorld F) (o : RtOp (pathTypes P)) (r : o.Res) : Bool :=
  countable o r && childless w o r

abbrev Orderly : Allowed F := fun w o r => orderly w o r = true

/-- The generation that the directory of a name had when the name was recorded, given the states
between requests, last one first.  A name is recorded by the request that makes it known. -/
def recorded : List (PathWorld F) → Dentry → Option Nat
  | [], _ => none
  | w :: older, d =>
    if d ∈ w.ext.ns.byName then (recorded older d).or (w.table.generationOf d.parent) else none

section Rooted

variable {w₀ w : PathWorld F} {t t' : NodeTable (PathNode P)} {ns : Namespace} {d d' : Dentry}
  {id : NodeId} {q : Request} {past : Found F}

/-- The directory of the name is live and linked, and it is the one it was in `w₀` if the name was
known then. -/
def Grounded (w₀ : PathWorld F) (t : NodeTable (PathNode P)) (d : Dentry) : Prop :=
  ∃ slot : Slot (PathNode P), t.map[d.parent]? = some slot ∧ slot.links ≠ 0 ∧
    (d ∈ w₀.ext.ns.byName → w₀.table.generationOf d.parent = some slot.generation)

/-- Every name is under a directory as `Grounded` says. -/
def Rooted (w₀ : PathWorld F) (t : NodeTable (PathNode P)) (ns : Namespace) : Prop :=
  ∀ d id, ns.byName[d]? = some id → Grounded w₀ t d

theorem Grounded.of (grounded : Grounded w₀ t d)
    (keeps : ∀ slot : Slot (PathNode P), t.map[d.parent]? = some slot → slot.links ≠ 0 →
      ∃ slot' : Slot (PathNode P), t'.map[d.parent]? = some slot' ∧ slot'.links ≠ 0 ∧
        slot'.generation = slot.generation) : Grounded w₀ t' d := by
  obtain ⟨slot, live, linked, same⟩ := grounded
  obtain ⟨slot', live', linked', generation⟩ := keeps slot live linked
  exact ⟨slot', live', linked', by rw [generation]; exact same⟩

theorem Grounded.trims (grounded : Grounded w₀ t d) (trims : t.Trims t') : Grounded w₀ t' d := by
  refine grounded.of fun slot live linked => ?_
  obtain ⟨slot', live'⟩ := trims.stays _ slot live linked
  obtain ⟨slot₁, live₁, -, links, -, generation⟩ := trims.same _ slot' live'
  rw [live] at live₁
  cases live₁
  exact ⟨slot', live', links ▸ linked, generation⟩

/-- A name in a directory with a path. -/
theorem Wired.grounded (wired : Wired t ns) (anchored : ns.Anchored d.parent)
    (same : d ∈ w₀.ext.ns.byName → Grounded w₀ t d) : Grounded w₀ t d := by
  obtain ⟨slot, live⟩ := wired.anchored_live anchored
  refine ⟨slot, live, wired.linked live anchored, fun known => ?_⟩
  obtain ⟨slot', live', -, generation⟩ := same known
  rw [live] at live'
  cases live'
  exact generation known

/-- The link that an orderly step takes was not the last one of a directory with names. -/
theorem Permits.links_ne {slot : Slot (PathNode P)} (permits : Permits Orderly w (.removeLink id) ())
    (live : w.table.map[id]? = some slot) {k : NodeId} (known : w.ext.ns.byName[d]? = some k)
    (inside : d.parent = id) : slot.links ≠ 1 := by
  obtain ⟨w₁, table, names, allowed⟩ := permits
  have mem : d ∈ w₁.ext.ns.byName.keys := by
    rw [names, ExtTreeMap.mem_keys, ExtTreeMap.mem_iff_isSome_getElem?, known]
    rfl
  simp only [Orderly, orderly, countable, childless, Bool.true_and, Bool.or_eq_true,
    List.all_eq_true, table, live, Option.all_some, bne_iff_ne] at allowed
  rcases allowed with more | none_inside
  · exact more
  · exact absurd inside (none_inside d mem)

theorem Grounded.removeLink (grounded : Grounded w₀ w.table d) (tidy : w.table.Tidy)
    (permits : Permits Orderly w (.removeLink id) ()) {k : NodeId}
    (known : w.ext.ns.byName[d]? = some k) : Grounded w₀ (w.table.removeLink id) d := by
  refine grounded.of fun slot live linked => ?_
  have held : slot.links - (if id = d.parent then 1 else 0) ≠ 0 := by
    split
    · rename_i same
      have := permits.links_ne (same ▸ live) known same.symm
      omega
    · exact linked
  obtain ⟨slot', live'⟩ := removeLink_stays tidy live held
  obtain ⟨slot₁, live₁, -, -, generation, links⟩ := removeLink_old tidy live'
  rw [live] at live₁
  cases live₁
  exact ⟨slot', live', links ▸ held, generation⟩

theorem Rooted.remove (rooted : Rooted w₀ w.table w.ext.ns) (tidy : w.table.Tidy)
    (permits : Permits Orderly w (.removeLink id) ()) :
    Rooted w₀ (w.table.removeLink id) (w.ext.ns.remove d).2 := by
  intro d' k known
  rw [Namespace.byName_remove] at known
  split at known
  · cases known
  · exact (rooted d' k known).removeLink tidy permits known

theorem Rooted.insert (rooted : Rooted w₀ t ns) (wired : Wired t ns) {given : List (Nat × Nat)}
    (num : t.Numbered given) (anchored : ns.Anchored d.parent) (new : d ∉ w₀.ext.ns.byName)
    {payload : PathNode P} {next : Nat} (insert : t.insert payload d.parent = (some id, t')) :
    Rooted w₀ t' (ns.inserted d id next) := by
  obtain ⟨dead, generation, map⟩ := num.insert_map insert
  have keeps : ∀ d', Grounded w₀ t d' → Grounded w₀ t' d' := fun d' grounded =>
    grounded.of fun slot live linked => by
      refine ⟨slot, ?_, linked, rfl⟩
      rw [map, if_neg, live]
      rintro rfl
      rw [dead] at live
      cases live
  intro d' k known
  rw [Namespace.inserted_byName, Namespace.byName_addAlias] at known
  split at known
  · rename_i same
    subst same
    exact keeps _ (wired.grounded anchored fun known => absurd known new)
  · exact keeps _ (rooted d' k known)

theorem Rooted.rename {old new : Dentry} {replaced : Option NodeId} {source : NodeId}
    (rooted : Rooted w₀ w.table w.ext.ns) (wired : Wired w.table w.ext.ns)
    (names : w.ext.ns = w₀.ext.ns) (tidy : w.table.Tidy)
    (anchored : w.ext.ns.Anchored new.parent)
    (permits : ∀ id, replaced = some id → Permits Orderly w (.removeLink id) ())
    (renamed : w.ext.ns.rename old new = some (replaced, source, ns)) :
    Rooted w₀ ((replaced.elim w.table w.table.removeLink).reparent source new.parent) ns := by
  obtain ⟨tidy', known₁, -⟩ := Wired.rename_parts tidy renamed
  obtain ⟨known, different, eq, -⟩ := Namespace.rename_eq_some renamed
  have displaced := wired.displace tidy new
  rw [← eq] at displaced
  obtain ⟨slot, live⟩ := displaced.live old source (displaced.named old source known₁)
  have moves : ∀ d', Grounded w₀ (replaced.elim w.table w.table.removeLink) d' →
      Grounded w₀ ((replaced.elim w.table w.table.removeLink).reparent source new.parent) d' :=
    fun d' grounded => grounded.of fun s live' linked => by
      rw [reparent_map tidy' live]
      split
      · rename_i same
        rw [same, live'] at live
        cases live
        exact ⟨_, rfl, linked, rfl⟩
      · exact ⟨s, live', linked, rfl⟩
  intro d' k found
  refine moves d' ?_
  rw [Namespace.byName_rename renamed] at found
  split at found
  · rename_i same
    subst same
    -- the new name was there before only if it replaced something
    cases replaced with
    | none =>
        refine wired.grounded anchored fun known => ?_
        rw [← names, ExtTreeMap.mem_iff_isSome_getElem?, ← eq] at known
        cases known
    | some id => exact (rooted new id eq.symm).removeLink tidy (permits id rfl) eq.symm
  · split at found
    · cases found
    · cases replaced with
      | none => exact rooted d' k found
      | some id => exact (rooted d' k found).removeLink tidy (permits id rfl) found

theorem Rooted.addAlias (rooted : Rooted w₀ t ns) (wired : Wired t ns) (names : ns = w₀.ext.ns)
    (anchored : ns.Anchored d.parent) {slot : Slot (PathNode P)} (live : t.map[id]? = some slot)
    (added : t.addLink id = (some (), t')) : Rooted w₀ t' (ns.addAlias id d) := by
  have keeps : ∀ d', Grounded w₀ t d' → Grounded w₀ t' d' := fun d' grounded =>
    grounded.of fun s live' linked => by
      rw [addLink_map live added]
      split
      · rename_i same
        rw [same, live'] at live
        cases live
        exact ⟨_, rfl, Nat.succ_ne_zero _, rfl⟩
      · exact ⟨s, live', linked, rfl⟩
  intro d' k known
  refine keeps d' ?_
  rw [Namespace.byName_addAlias] at known
  split at known
  · rename_i same
    subst same
    refine wired.grounded anchored fun known => ?_
    rw [← names, ExtTreeMap.mem_iff_isSome_getElem?] at known
    obtain ⟨k, known⟩ := Option.isSome_iff_exists.mp known
    exact rooted d k known
  · exact rooted d' k known

/-! ## Whole runs -/

theorem rooted_grows : Grows (F := F) Orderly (fun t ns =>
    Wired t ns ∧ Rooted w₀ t ns ∧ ∀ d ∈ w₀.ext.ns.byName, d ∈ ns.byName) Namespace.Placed := by
  constructor
  case stable =>
      rintro t t' ns ⟨wired, rooted, more⟩ trims
      exact ⟨wired.trims trims, fun d id known => (rooted d id known).trims trims, more⟩
  case keyed => exact fun ⟨wired, _⟩ live => wired.keyed _ _ live
  case enters => exact fun placed => placed
  case usedKey => exact fun ⟨wired, rooted, more⟩ => ⟨wired.usedKey, rooted, more⟩
  case usedSpot => exact fun placed => placed.usedKey
  case insert =>
      rintro given d id state t' w ⟨wired, rooted, more⟩ numbered unknown placed _ _ made
      have new : d ∉ w₀.ext.ns.byName := fun known => by
        have := more d known
        rw [ExtTreeMap.mem_iff_isSome_getElem?, unknown] at this
        cases this
      refine ⟨⟨wired.insert numbered made,
        rooted.insert wired numbered placed.anchored new made, ?_⟩, wired.insert_placed numbered made placed⟩
      intro d' known
      rw [Namespace.inserted_byName]
      exact ExtTreeMap.mem_insert.mpr (.inr (more d' known))
  case rollback =>
      rintro t₁ ns₁ d id w ⟨_, _, more₁⟩ unknown ⟨wired, rooted, more⟩ placed tidy known permits
      refine ⟨⟨wired.remove tidy known, Rooted.remove rooted tidy permits, fun d' known' => ?_⟩,
        placed.remove⟩
      have other : d ≠ d' := fun same => by
        have := more₁ d' known'
        rw [← same, ExtTreeMap.mem_iff_isSome_getElem?, unknown] at this
        cases this
      rw [ExtTreeMap.mem_iff_isSome_getElem?, Namespace.byName_remove, if_neg other,
        ← ExtTreeMap.mem_iff_isSome_getElem?]
      exact more d' known'

theorem rooted_alters :
    Alters (F := F) Orderly q (fun t ns => (Wired t ns ∧ Rooted w₀ t ns) ∧ ns = w₀.ext.ns)
      fun t ns => Wired t ns ∧ Rooted w₀ t ns := by
  have stable : Stable (P := P) fun t ns => Wired t ns ∧ Rooted w₀ t ns := by
    rintro t t' ns ⟨wired, rooted⟩ trims
    exact ⟨wired.trims trims, fun d id known => (rooted d id known).trims trims⟩
  constructor
  case before => exact fun t t' ns ⟨here, names⟩ trims => ⟨stable t t' ns here trims, names⟩
  case after => exact stable
  case le => exact fun ⟨here, _⟩ => here
  case keyed => exact fun ⟨⟨wired, _⟩, _⟩ live => wired.keyed _ _ live
  case removes =>
      intro d id w ⟨⟨wired, rooted⟩, _⟩ known tidy permits
      exact ⟨wired.remove tidy known, Rooted.remove rooted tidy permits⟩
  case moves =>
      intro old new replaced source ns w ⟨⟨wired, rooted⟩, names⟩ renamed placed _ tidy permits _
      exact ⟨wired.rename tidy renamed,
        Rooted.rename rooted wired names tidy placed.anchored permits renamed⟩
  case links =>
      intro id newparent newname caller t' w _ ⟨⟨wired, rooted⟩, names⟩ placed placed' _ _ added
      obtain ⟨slot, live⟩ := wired.anchored_live placed.anchored
      exact ⟨wired.addAlias live added,
        Rooted.addAlias rooted wired names placed'.anchored live added⟩
  case full => exact fun allowed => nomatch allowed

/-- One request keeps every name under the directory it found it under. -/
theorem request_rooted {w' : PathWorld F} {out : Except Exit Reply} (sane : Sane w)
    (wired : Wired w.table w.ext.ns) (rooted : Rooted w w.table w.ext.ns)
    (run : (q.run (pathNodeFs P)).Exec ((runtime (adapter F)).restrict Orderly) w out w') :
    Wired w'.table w'.ext.ns ∧ Rooted w w'.table w'.ext.ns := by
  obtain ⟨inside, -⟩ := sane.request run
  cases edits : q.edits with
  | true => exact (Request.changes rooted_alters edits ⟨⟨wired, rooted⟩, rfl⟩).exec inside
  | false =>
      have kept := (Request.keeps rooted_grows q edits w ⟨wired, rooted, fun _ h => h⟩).exec inside
      exact ⟨kept.1, kept.2.1⟩

theorem PathRun.rooted {root : P.NodeState} {b : F.State}
    (ran : PathRun Orderly (PathNodeFs.world root b) past w) :
    Wired w.table w.ext.ns ∧ ∀ d id, w.ext.ns.byName[d]? = some id →
      ∃ slot : Slot (PathNode P), w.table.map[d.parent]? = some slot ∧ slot.links ≠ 0 ∧
        recorded (w :: past.map Prod.fst) d = some slot.generation := by
  induction ran with
  | start => exact ⟨.new _ rfl, fun d id known => by simp [PathNodeFs.world, World.new, Namespace.new] at known⟩
  | @call past w w' q out ran run ih =>
      obtain ⟨wired, old⟩ := ih
      have rooted : Rooted w w.table w.ext.ns := fun d id known => by
        obtain ⟨slot, live, linked, -⟩ := old d id known
        exact ⟨slot, live, linked, fun _ => by rw [generationOf, live]; rfl⟩
      obtain ⟨wired', rooted'⟩ := request_rooted ran.sane wired rooted run
      refine ⟨wired', fun d id known => ?_⟩
      obtain ⟨slot, live, linked, same⟩ := rooted' d id known
      have here : d ∈ w'.ext.ns.byName := by
        rw [ExtTreeMap.mem_iff_isSome_getElem?, known]
        rfl
      refine ⟨slot, live, linked, ?_⟩
      show (if d ∈ w'.ext.ns.byName then (recorded (w :: past.map Prod.fst) d).or _ else none) = _
      rw [if_pos here]
      by_cases before : d ∈ w.ext.ns.byName
      · rw [ExtTreeMap.mem_iff_isSome_getElem?] at before
        obtain ⟨k, before'⟩ := Option.isSome_iff_exists.mp before
        obtain ⟨slot₀, live₀, -, since⟩ := old d k before'
        rw [← ExtTreeMap.mem_iff_isSome_getElem?] at before
        have generation := same before
        rw [generationOf, live₀] at generation
        rw [since]
        exact generation
      · have new : recorded (w :: past.map Prod.fst) d = none := if_neg before
        rw [new, Option.none_or, generationOf, live]
        rfl

/-- Between the requests of an orderly run, the directory of every name is live, and has the
generation it had when the name was recorded. -/
theorem names_rooted {root : P.NodeState} {b : F.State}
    (ran : PathRun Orderly (PathNodeFs.world root b) past w)
    (known : w.ext.ns.byName[d]? = some id) :
    ∃ slot : Slot (PathNode P), w.table.map[d.parent]? = some slot ∧
      recorded (w :: past.map Prod.fst) d = some slot.generation := by
  obtain ⟨slot, live, -, generation⟩ := ran.rooted.2 d id known
  exact ⟨slot, live, generation⟩

end Rooted

/-- A directory with a file in it. -/
def furnished : PathWorld (scripted grants) :=
  played grants true orderly [.mkdir 1 [97] 0 0 nobody, .lookup 2 [120] nobody]
    (PathNodeFs.world () ())

/-- The file's name is under the directory it was recorded in. -/
theorem furnished_rooted :
    ∃ past slot, PathRun Orderly (PathNodeFs.world () ()) past furnished ∧
      furnished.ext.ns.byName[Dentry.mk 2 [120]]? = some 3 ∧
      furnished.table.map[2]? = some slot ∧
      recorded (furnished :: past.map Prod.fst) ⟨2, [120]⟩ = some slot.generation := by
  obtain ⟨past, ran⟩ : ∃ past, PathRun Orderly (PathNodeFs.world () ()) past furnished :=
    played_run (by decide +kernel)
  have known : furnished.ext.ns.byName[Dentry.mk 2 [120]]? = some 3 := by decide +kernel
  obtain ⟨slot, live, generation⟩ := names_rooted ran known
  exact ⟨past, slot, ran, known, live, generation⟩

/-- The directory is removed, as the filesystem allows, and forgotten. -/
def demolished : PathWorld (scripted grants) :=
  played grants true (fun _ => countable) [.mkdir 1 [97] 0 0 nobody, .lookup 2 [120] nobody,
    .rmdir 1 [97] nobody, .forget 2 1] (PathNodeFs.world () ())

/-- The file's name is left behind, under a number that is free for the next node. -/
theorem leftover_name :
    ∃ past d id, PathRun Countable (PathNodeFs.world () ()) past demolished ∧
      demolished.ext.ns.byName[d]? = some id ∧
      ¬∃ slot : Slot (PathNode unitPath), demolished.table.map[d.parent]? = some slot ∧
        recorded (demolished :: past.map Prod.fst) d = some slot.generation := by
  obtain ⟨past, ran⟩ : ∃ past, PathRun Countable (PathNodeFs.world () ()) past demolished :=
    played_run (by decide +kernel)
  have dead : demolished.table.map[2]?.isNone = true := by decide +kernel
  refine ⟨past, ⟨2, [120]⟩, 3, ran, by decide +kernel, fun ⟨slot, live, _⟩ => ?_⟩
  rw [show Dentry.parent ⟨2, [120]⟩ = 2 from rfl] at live
  rw [live] at dead
  cases dead

end TypedFuse
