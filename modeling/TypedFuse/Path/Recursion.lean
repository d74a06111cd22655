import TypedFuse.Lib.Chase
import TypedFuse.Path.Runs

/-!
# `path_for` ends

`path_for` goes from a node to the parent of its first name until it is at the root or at a node
without names, with no bound on how far.  `path_for_ends` is that it gets there, if the kernel keeps
its rules: no directory is moved below itself, and only a node with one name at most has names
inside it.

Inode numbers do not help here: the number of a removed directory goes to a new node while names
are left below it, and these then continue through the new node.
-/

namespace TypedFuse

open Std Prog NodeTable

variable {P : PathTypes} {F : Backing P}

namespace Namespace

variable {ns ns' : Namespace} {d : Dentry} {id k : NodeId} {ids : List NodeId}

/-- Where `path_for` goes on from `id`. -/
def above (ns : Namespace) (id : NodeId) : Option NodeId :=
  if id = NodeId.root then none else (ns.firstName id).map Dentry.parent

theorem above_eq_none : ns.above id = none ↔ id = NodeId.root ∨ ns.firstName id = none := by
  unfold above
  split <;> simp_all

theorem above_eq_some : ns.above id = some k ↔
    id ≠ NodeId.root ∧ ∃ first, ns.firstName id = some first ∧ first.parent = k := by
  unfold above
  split <;> simp_all

/-- The recursion, with enough room for it. -/
theorem pathIn_of_chase (way : Chase ns.above id ids) {fuel : Nat} (enough : ids.length ≤ fuel) :
    ∃ path, ns.pathIn fuel id = some path := by
  induction way generalizing fuel with
  | @stop id stops =>
      unfold pathIn
      rcases above_eq_none.mp stops with root | nameless
      · exact ⟨some [], if_pos root⟩
      · split
        · exact ⟨some [], rfl⟩
        · rw [nameless]
          exact ⟨none, rfl⟩
  | @step id k ids goes _ ih =>
      obtain ⟨below, first, named, rfl⟩ := above_eq_some.mp goes
      rw [List.length_cons] at enough
      obtain ⟨fuel, rfl⟩ : ∃ n, fuel = n + 1 := ⟨fuel - 1, by omega⟩
      obtain ⟨path, rest⟩ := ih (Nat.le_of_succ_le_succ enough)
      unfold pathIn
      rw [if_neg below, named]
      dsimp only
      rw [rest]
      exact ⟨_, rfl⟩

/-- A way that ends has room in the recursion that `pathFor` allows. -/
theorem pathFor_of_chase (way : Chase ns.above id ids) : ∃ path, ns.pathFor id = some path := by
  refine pathIn_of_chase way ?_
  rw [← ExtTreeMap.length_keys]
  refine way.length_le fun b c goes => ExtTreeMap.mem_keys.mpr ?_
  obtain ⟨-, first, named, -⟩ := above_eq_some.mp goes
  refine Decidable.byContradiction fun missing => ?_
  have mem := firstName_mem named
  simp [names, ExtTreeMap.getD_eq_fallback missing] at mem

theorem HasPath.chase {p : Path} (path : ns.HasPath id p) : ∃ ids, Chase ns.above id ids := by
  induction path with
  | root => exact ⟨[], .stop (above_eq_none.mpr (.inl rfl))⟩
  | child below named _ ih =>
      obtain ⟨ids, way⟩ := ih
      exact ⟨_, .step (above_eq_some.mpr ⟨below, _, named, rfl⟩) way⟩

/-! ## One name more or less -/

/-- A node that has names inside it has at most one itself. -/
def Simple (ns : Namespace) : Prop :=
  ∀ (k : NodeId) (d : Dentry), d ∈ ns.names k → (ns.names d.parent).size ≤ 1

theorem above_congr (same : ns'.firstName k = ns.firstName k) : ns'.above k = ns.above k := by
  rw [above, above, same]

theorem above_mem (goes : ns.above id = some k) : ∃ d ∈ ns.names id, d.parent = k := by
  obtain ⟨-, first, named, parent⟩ := above_eq_some.mp goes
  exact ⟨first, firstName_mem named, parent⟩

theorem Simple.remove (simple : ns.Simple) (d : Dentry) : (ns.remove d).2.Simple := by
  intro k d' mem
  refine Nat.le_trans ?_ (simple k d' (mem_names_remove.mp mem).1)
  cases known : ns.byName[d]? with
  | none =>
      rw [remove_unknown known]
  | some id =>
      rw [names_remove known]
      split
      · rename_i same
        subst same
        exact ExtTreeSet.size_erase_le
      · exact Nat.le_refl _

/-- A name goes: its node has none left, or had several and nothing inside it. -/
theorem acyclic_remove (acyclic : Acyclic ns.above) (simple : ns.Simple) (named : ns.Named)
    (d : Dentry) : Acyclic (ns.remove d).2.above := by
  cases known : ns.byName[d]? with
  | none =>
      rw [remove_unknown known]
      exact acyclic
  | some id =>
      have same : ∀ k, k ≠ id → (ns.remove d).2.above k = ns.above k := fun k other =>
        above_congr (firstName_remove known other)
      have size := size_names_remove (k := id) known (named d id known)
      rw [if_pos rfl] at size
      cases left : (ns.remove d).2.firstName id with
      | none => exact acyclic.update same ⟨[], .stop (above_eq_none.mpr (.inr left))⟩
      | some first =>
          refine acyclic.of_unpointed same fun k goes => ?_
          obtain ⟨d', mem, inside⟩ := above_mem goes
          have few := simple k d' (mem_names_remove.mp mem).1
          have more := size_ne_zero (firstName_mem left)
          rw [inside] at few
          omega

theorem insert_mem {s : ExtTreeSet Dentry} (mem : d ∈ s) : s.insert d = s := by
  refine ExtTreeSet.ext_mem fun d' => ?_
  rw [ExtTreeSet.mem_insert, LawfulEqCmp.compare_eq_iff_eq]
  constructor
  · rintro (rfl | kept)
    · exact mem
    · exact kept
  · exact .inr

/-- A node that had a name and gets another has nothing inside it. -/
theorem Simple.unpointed (simple : (ns.addAlias id d).Simple) (named : ns.firstName id ≠ none)
    (new : d ∉ ns.names id) {d' : Dentry} (mem : d' ∈ (ns.addAlias id d).names k) :
    d'.parent ≠ id := by
  intro inside
  obtain ⟨first, named⟩ := Option.ne_none_iff_exists'.mp named
  have few := simple k d' mem
  have size : ((ns.addAlias id d).names id).size = _ := size_names_addAlias new
  rw [if_pos rfl] at size
  have := size_ne_zero (firstName_mem named)
  rw [inside] at few
  omega

/-- A name comes: its node had none, so that the way from the name cannot lead through it, or it has
several now and nothing inside it. -/
theorem acyclic_addAlias (acyclic : Acyclic ns.above) (placed : ns.Placed d.parent)
    (simple : (ns.addAlias id d).Simple) : Acyclic (ns.addAlias id d).above := by
  have same : ∀ k, k ≠ id → (ns.addAlias id d).above k = ns.above k := fun k other =>
    above_congr (firstName_addAlias other)
  cases old : ns.firstName id with
  | none =>
      obtain ⟨p, path⟩ := placed.addAlias (d := d) old
      obtain ⟨ids, way⟩ := path.chase
      refine acyclic.update same ?_
      by_cases root : id = NodeId.root
      · exact ⟨[], .stop (above_eq_none.mpr (.inl root))⟩
      · have only : (ns.addAlias id d).firstName id = some d := by
          have empty : ns.names id = ∅ := by
            rw [firstName_eq_min] at old
            exact ExtTreeSet.min?_eq_none_iff.mp old
          rw [firstName_eq_min, names_addAlias, if_pos rfl, empty, ExtTreeSet.min?_insert,
            ExtTreeSet.min?_empty, Option.elim_none]
        exact ⟨id :: ids, .step (above_eq_some.mpr ⟨root, d, only, rfl⟩) way⟩
  | some first =>
      by_cases again : d ∈ ns.names id
      · have unchanged : (ns.addAlias id d).firstName id = ns.firstName id := by
          rw [firstName, firstName, names_addAlias, if_pos rfl, insert_mem again]
        have all : (ns.addAlias id d).above = ns.above := by
          funext k
          by_cases own : k = id
          · rw [own]
            exact above_congr unchanged
          · exact same k own
        rwa [all]
      · have named : ns.firstName id ≠ none := by
          rw [old]
          exact Option.some_ne_none first
        refine acyclic.of_unpointed same fun k goes => ?_
        obtain ⟨d', mem, inside⟩ := above_mem goes
        exact simple.unpointed named again mem inside

/-- The directory of a name that comes keeps its path. -/
theorem Simple.placed (simple : (ns.addAlias id d).Simple) (placed : ns.Placed d.parent) :
    (ns.addAlias id d).Placed d.parent := by
  by_cases nameless : ns.firstName id = none
  · exact placed.addAlias nameless
  by_cases again : d ∈ ns.names id
  · refine placed.mono fun k first _ named => ?_
    by_cases own : k = id
    · subst own
      rw [firstName, names_addAlias, if_pos rfl, insert_mem again]
      exact named
    · rw [firstName_addAlias own]
      exact named
  -- The way is not through the node that now has several names.
  obtain ⟨p, path⟩ := placed
  have off : ∀ k q, ns.HasPath k q → k ≠ id → (ns.addAlias id d).HasPath k q := by
    intro k q way
    induction way with
    | root => exact fun _ => .root
    | child below named _ ih =>
        intro other
        have named' := (firstName_addAlias (d := d) other).trans named
        exact .child below named' (ih (simple.unpointed nameless again (firstName_mem named')))
  have own : d ∈ (ns.addAlias id d).names id := mem_names_addAlias.mpr (.inl ⟨rfl, rfl⟩)
  exact ⟨p, off d.parent p path (simple.unpointed nameless again own)⟩

/-! ## Renaming -/

/-- The nodes that `path_for` comes to from `id`, at most `fuel` of them. -/
def wayIn (ns : Namespace) : (fuel : Nat) → NodeId → List NodeId
  | 0, _ => []
  | fuel + 1, id => id :: (ns.above id).elim [] (wayIn ns fuel)

/-- The nodes that `path_for` comes to from `id`. -/
def ancestors (ns : Namespace) (id : NodeId) : List NodeId := ns.wayIn (ns.aliases.size + 1) id

/-- Taken from one directory, a name that is not on the way to another leaves it where it is. -/
theorem Placed.moved {old new : Dentry} {source : NodeId} (placed : ns.Placed new.parent)
    (known : ns.byName[old]? = some source) (apart : new ≠ old)
    (off : source ∉ ns.ancestors new.parent) :
    ((ns.remove new).2.remove old).2.Placed new.parent := by
  obtain ⟨p, path⟩ := placed
  have known' : (ns.remove new).2.byName[old]? = some source := by
    rw [byName_remove, if_neg apart, known]
  have way : ∀ k q, ns.HasPath k q → ∀ fuel, q.length < fuel → q.length ≤ p.length →
      source ∉ ns.wayIn fuel k → ((ns.remove new).2.remove old).2.HasPath k q := by
    intro k q way
    induction way with
    | root => exact fun _ _ _ _ => .root
    | @child k first q below named parent ih =>
        intro fuel room short off
        rw [List.length_append, List.length_singleton] at room short
        obtain ⟨fuel, rfl⟩ : ∃ n, fuel = n + 1 := ⟨fuel - 1, by omega⟩
        have goes : ns.above k = some first.parent := above_eq_some.mpr ⟨below, first, named, rfl⟩
        rw [wayIn, goes, List.mem_cons, not_or] at off
        have other : first ≠ new := by
          rintro rfl
          rw [parent.unique path] at short
          omega
        refine .child below ?_ (ih fuel (by omega) (by omega) off.2)
        rw [firstName_remove known' (Ne.symm off.1)]
        exact firstName_remove_of_ne named other
  exact ⟨p, way _ p path _ (Nat.lt_succ_of_le path.length_le) (Nat.le_refl _) off⟩

theorem acyclic_rename {old new : Dentry} {replaced : Option NodeId} {source : NodeId}
    (acyclic : Acyclic ns.above) (simple : ns.Simple) (named : ns.Named)
    (placed : ns.Placed new.parent) (off : source ∉ ns.ancestors new.parent)
    (renamed : ns.rename old new = some (replaced, source, ns')) (simple' : ns'.Simple) :
    Acyclic ns'.above := by
  obtain ⟨known, different, -, rfl⟩ := rename_eq_some renamed
  have apart : new ≠ old := fun same => different (same ▸ known)
  have acyclic₁ := acyclic_remove acyclic simple named new
  have acyclic₂ := acyclic_remove acyclic₁ (simple.remove new) (named.remove new) old
  exact acyclic_addAlias acyclic₂ (placed.moved known apart off) simple'

/-- `Simple`, as it is checked. -/
def simple (ns : Namespace) : Bool :=
  ns.aliases.keys.all fun k => (ns.names k).toList.all fun d => (ns.names d.parent).size ≤ 1

theorem simple_iff : ns.simple = true ↔ ns.Simple := by
  unfold simple Simple
  simp only [List.all_eq_true, decide_eq_true_eq, ExtTreeSet.mem_toList]
  constructor
  · intro all k d mem
    refine all k ?_ d mem
    refine ExtTreeMap.mem_keys.mpr (Decidable.byContradiction fun missing => ?_)
    simp [names, ExtTreeMap.getD_eq_fallback missing] at mem
  · exact fun all k _ d mem => all k d mem

end Namespace

/-! ## Runs -/

/-- What the kernel sees to: nothing is moved below itself, and only a node with one name at most has
names inside it. -/
def kernelRules (w : PathWorld F) : (o : RtOp (pathTypes P)) → o.Res → Bool
  | .cx (.ext (.inner (.rename dir name newdir _ _))), some (.ok _) =>
    w.ext.ns.keys[dir.node.key]?.all fun parent =>
      w.ext.ns.keys[newdir.node.key]?.all fun newparent =>
        w.ext.ns.byName[Dentry.mk parent name]?.all (· ∉ w.ext.ns.ancestors newparent)
  | .cx (.ext (.unlock ns)), _ => ns.simple
  | _, _ => true

/-- The steps of a run in which the kernel keeps its rules. -/
abbrev Kernel : Allowed F := fun w o r => kernelRules w o r = true

theorem PutsBack.simple {ns : Namespace} (back : PutsBack (F := F) Kernel ns) : ns.Simple := by
  obtain ⟨w, allowed⟩ := back
  exact Namespace.simple_iff.mp allowed

/-- A node that is renamed is not on the way to its new directory. -/
theorem RenamePermitted.off {w : PathWorld F} {old new : Dentry} {source : NodeId}
    (permitted : RenamePermitted Kernel w old new) (known : w.ext.ns.byName[old]? = some source) :
    source ∉ w.ext.ns.ancestors new.parent := by
  obtain ⟨w₀, dir, newdir, caller, names, key, newkey, allowed⟩ := permitted
  have allowed : (w₀.ext.ns.keys[dir.node.key]?.all fun parent =>
      w₀.ext.ns.keys[newdir.node.key]?.all fun newparent =>
        w₀.ext.ns.byName[Dentry.mk parent old.name]?.all (· ∉ w₀.ext.ns.ancestors newparent)) = true :=
    allowed
  rw [key, newkey] at allowed
  simp only [Option.all_some, names, known, decide_eq_true_eq] at allowed
  exact allowed

/-- From every node the way up ends, and no directory has several names. -/
structure Treelike (t : NodeTable (PathNode P)) (ns : Namespace) : Prop extends Keyed t ns where
  named : ns.Named
  simple : ns.Simple
  acyclic : Acyclic ns.above

namespace Treelike

variable {t t' : NodeTable (PathNode P)} {ns ns' : Namespace} {d : Dentry} {id : NodeId}

theorem new (root : PathNode P) (key : root.key = 1) : Treelike (.withRoot root) .new where
  toKeyed := .new root key
  named := Namespace.new_named
  simple k d mem := by simp [Namespace.names, Namespace.new] at mem
  acyclic id := ⟨[], .stop (Namespace.above_eq_none.mpr (.inr rfl))⟩

theorem ending : Ending fun (t : NodeTable (PathNode P)) ns => Treelike t ns := by
  intro t ns tree id lost
  obtain ⟨ids, way⟩ := tree.acyclic id
  obtain ⟨path, found⟩ := Namespace.pathFor_of_chase way
  rw [lost] at found
  cases found

theorem trims (tree : Treelike t ns) (trims : t.Trims t') : Treelike t' ns :=
  { tree with toKeyed := tree.toKeyed.trims trims }

theorem usedKey (tree : Treelike t ns) : Treelike t { ns with nextKey := ns.nextKey + 1 } :=
  { tree with toKeyed := tree.toKeyed.usedKey }

theorem insert (tree : Treelike t ns) {given : List (Nat × Nat)} (num : t.Numbered given)
    (placed : ns.Placed d.parent) (simple : (ns.inserted d id (ns.nextKey + 1)).Simple)
    {state : P.NodeState} (made : t.insert ⟨ns.nextKey, state⟩ d.parent = (some id, t')) :
    Treelike t' (ns.inserted d id (ns.nextKey + 1)) where
  toKeyed := tree.toKeyed.insert num made
  named := tree.named.addAlias id d
  simple := simple
  acyclic := Namespace.acyclic_addAlias tree.acyclic placed simple

theorem remove (tree : Treelike t ns) (tidy : t.Tidy) (id : NodeId) (d : Dentry) :
    Treelike (t.removeLink id) (ns.remove d).2 where
  toKeyed := (tree.toKeyed.removeLink tidy id).remove d
  named := tree.named.remove d
  simple := tree.simple.remove d
  acyclic := Namespace.acyclic_remove tree.acyclic tree.simple tree.named d

theorem addAlias (tree : Treelike t ns) (placed : ns.Placed d.parent)
    (simple : (ns.addAlias id d).Simple) : Treelike (t.addLink id).2 (ns.addAlias id d) where
  toKeyed := (tree.toKeyed.addLink id).addAlias id d
  named := tree.named.addAlias id d
  simple := simple
  acyclic := Namespace.acyclic_addAlias tree.acyclic placed simple

theorem rename (tree : Treelike t ns) (tidy : t.Tidy) {old new : Dentry}
    {replaced : Option NodeId} {source : NodeId}
    (renamed : ns.rename old new = some (replaced, source, ns')) (placed : ns.Placed new.parent)
    (off : source ∉ ns.ancestors new.parent) (simple : ns'.Simple) :
    Treelike ((replaced.elim t t.removeLink).reparent source new.parent) ns' where
  toKeyed := tree.toKeyed.rename tidy renamed
  named := tree.named.rename renamed
  simple := simple
  acyclic := Namespace.acyclic_rename tree.acyclic tree.simple tree.named placed off renamed simple

theorem stable : Stable fun (t : NodeTable (PathNode P)) ns => Treelike t ns :=
  fun _ _ _ tree trims => tree.trims trims

theorem grows :
    Grows (F := F) Kernel (fun (t : NodeTable (PathNode P)) ns => Treelike t ns)
      Namespace.Placed where
  stable := stable
  keyed tree live := tree.keyed _ _ live
  enters placed := placed
  usedKey tree := tree.usedKey
  usedSpot placed := placed.usedKey
  insert tree numbered _ placed _ back made := by
    have placed' := Namespace.Simple.placed back.simple placed
    exact ⟨Treelike.insert tree numbered placed back.simple made,
      placed'.mono fun _ _ _ named => named⟩
  rollback _ _ tree placed tidy _ _ := ⟨Treelike.remove tree tidy _ _, placed.remove⟩

theorem alters {q : Request} :
    Alters (F := F) Kernel q (fun (t : NodeTable (PathNode P)) ns => Treelike t ns)
      fun t ns => Treelike t ns where
  before := stable
  after := stable
  le tree := tree
  keyed tree live := tree.keyed _ _ live
  removes tree _ tidy _ := Treelike.remove tree tidy _ _
  moves tree renamed placed permitted tidy _ back :=
    Treelike.rename tree tidy renamed placed
      (permitted.off (Namespace.rename_eq_some renamed).1) back.simple
  links _ tree _ placed _ back added := by
    have after := Treelike.addAlias tree placed back.simple
    rwa [added] at after
  full _ tree placed back added := by
    have after := Treelike.addAlias tree placed back.simple
    rwa [added] at after

/-- A request keeps it, and does not get lost in `path_for`. -/
theorem request {w : PathWorld F} (tree : Treelike w.table w.ext.ns) (q : Request) :
    (q.run (pathNodeFs P)).sure (byItself Kernel)
      (Recurses (Ending fun (t : NodeTable (PathNode P)) ns => Treelike t ns))
      (fun _ w' => Treelike w'.table w'.ext.ns) w := by
  cases edits : q.edits with
  | true => exact Request.changes alters edits tree
  | false => exact Request.keeps grows q edits w tree

end Treelike

section Ends

variable {past : Found F} {w : PathWorld F} {root : P.NodeState} {b : F.State}

theorem PathRun.treelike (ran : PathRun Kernel (PathNodeFs.world root b) past w) :
    Treelike w.table w.ext.ns := by
  induction ran with
  | start => exact .new _ rfl
  | call q out ran run ih => exact (ih.request q).exec (ran.sane.request run).1

/-- Between the requests of a run in which the kernel keeps its rules, the way up from every node
ends, at the root or a node without names, and `path_for` with it; and no request gets to a
`path_for` that goes on for ever. -/
theorem path_for_ends (ran : PathRun Kernel (PathNodeFs.world root b) past w) :
    (∀ id, ∃ ids path, Chase w.ext.ns.above id ids ∧ w.ext.ns.pathFor id = some path) ∧
      ∀ (q : Request) (w' : PathWorld F), ¬(q.run (pathNodeFs P)).Meets
        ((runtime (adapter F)).restrict Kernel) w (.cx (.ext .diverge)) w' := by
  have tree := ran.treelike
  constructor
  · intro id
    obtain ⟨ids, way⟩ := tree.acyclic id
    obtain ⟨path, found⟩ := Namespace.pathFor_of_chase way
    exact ⟨ids, path, way, found⟩
  · intro q w' meets
    exact (tree.request q).meets (ran.sane.meets meets) Treelike.ending

end Ends

/-- A directory with a file in it is removed and forgotten, and the directory that gets its number
is renamed. -/
def recycled : PathWorld (scripted grants) :=
  played grants true kernelRules [.mkdir 1 [97] 0 0 nobody, .lookup 2 [120] nobody,
    .rmdir 1 [97] nobody, .forget 2 1, .mkdir 1 [98] 0 0 nobody, .rename 1 [98] 1 [99] 0 nobody]
    (PathNodeFs.world () ())

/-- The file's name is still under that number, and its path leads through the new directory. -/
theorem recycled_ends :
    ∃ past, PathRun Kernel (PathNodeFs.world () ()) past recycled ∧
      recycled.ext.ns.pathFor 3 = some (some [[99], [120]]) ∧
      (∀ id, ∃ ids path, Chase recycled.ext.ns.above id ids ∧
        recycled.ext.ns.pathFor id = some path) ∧
      ∀ (q : Request) (w' : PathWorld (scripted grants)), ¬(q.run (pathNodeFs unitPath)).Meets
        ((runtime (adapter (scripted grants))).restrict Kernel) recycled (.cx (.ext .diverge))
        w' := by
  obtain ⟨past, ran⟩ : ∃ past, PathRun Kernel (PathNodeFs.world () ()) past recycled :=
    played_run (by decide +kernel)
  exact ⟨past, ran, by decide +kernel, path_for_ends ran⟩

end TypedFuse
