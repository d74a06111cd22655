import Mathlib.Data.List.Perm.Subperm
import TypedFuse.Core.Types

/-!
# The names of the path adapter

`Namespace` (`path_fs.rs`) is what `PathNodeFs` knows about names: the node of each name, every
name of each node, and the runtime id of each `PathNode`.  Paths are not stored; `pathFor` rebuilds
them from the first name of each node up to the root.

`Namespace::insert` creates the runtime node in its middle, so it is a program of
`TypedFuse/Path/Adapter.lean`; `inserted` is what it leaves behind.
-/

namespace TypedFuse

open Std

/-- A name within a parent directory. -/
structure Dentry where
  parent : NodeId
  name : OsStr
deriving DecidableEq, Repr

namespace Dentry

instance : Ord Dentry := ⟨compareLex (compareOn Dentry.parent) (compareOn Dentry.name)⟩

instance : TransOrd Dentry := inferInstanceAs (TransCmp (compareLex _ _))

instance : LawfulEqOrd Dentry where
  eq_of_compare := by
    intro a b same
    have parts : (compare a.parent b.parent).then (compare a.name b.name) = .eq := same
    rw [Ordering.then_eq_eq] at parts
    obtain ⟨parent, name⟩ := parts
    rw [LawfulEqCmp.compare_eq_iff_eq] at parent name
    cases a
    cases b
    simp_all

end Dentry

structure Namespace where
  byName : ExtTreeMap Dentry NodeId
  aliases : ExtTreeMap NodeId (ExtTreeSet Dentry)
  keys : ExtTreeMap Nat NodeId
  nextKey : Nat

namespace Namespace

def new : Namespace where
  byName := ∅
  aliases := ∅
  keys := (∅ : ExtTreeMap Nat NodeId).insert 1 NodeId.root
  nextKey := 2

variable (ns : Namespace)

/-- `id_for_node`, given the node's key. -/
def idForNode (key : Nat) : Option NodeId := ns.keys[key]?

/-- Every name of `id`. -/
def names (id : NodeId) : ExtTreeSet Dentry := ns.aliases.getD id ∅

/-- `aliases.get(&id)?.iter().next()?`. -/
def firstName (id : NodeId) : Option Dentry := (ns.names id).toList.head?

theorem firstName_eq_min (id : NodeId) : ns.firstName id = (ns.names id).min? :=
  ExtTreeSet.min?_eq_head?_toList.symm

/-- `path_for` in at most `fuel` recursive calls; `none` if they are not enough. -/
def pathIn : (fuel : Nat) → NodeId → Option (Option Path)
  | fuel, id =>
    if id = NodeId.root then some (some [])
    else
      match ns.firstName id, fuel with
      | none, _ => some none
      | some _, 0 => none
      | some first, fuel + 1 => (pathIn fuel first.parent).map fun p => p.map (· ++ [first.name])

/-- `path_for`.  A recursion longer than there are nodes with names goes in a circle, which the
source does not return from. -/
def pathFor (id : NodeId) : Option (Option Path) := ns.pathIn ns.aliases.size id

/-- What `insert` leaves behind for the new node `id`. -/
def inserted (dentry : Dentry) (id : NodeId) (next : Nat) : Namespace where
  byName := ns.byName.insert dentry id
  aliases := ns.aliases.insert id ((ns.names id).insert dentry)
  keys := ns.keys.insert ns.nextKey id
  nextKey := next

def remove (dentry : Dentry) : Option NodeId × Namespace :=
  match ns.byName[dentry]? with
  | none => (none, ns)
  | some id =>
    (some id, { ns with
      byName := ns.byName.erase dentry
      aliases :=
        match ns.aliases[id]? with
        | none => ns.aliases
        | some names =>
          if (names.erase dentry).isEmpty then ns.aliases.erase id
          else ns.aliases.insert id (names.erase dentry) })

def addAlias (id : NodeId) (dentry : Dentry) : Namespace :=
  { ns with
    byName := ns.byName.insert dentry id
    aliases := ns.aliases.insert id ((ns.names id).insert dentry) }

/-- What `rename` does to the names once the filesystem has renamed: the node that lost its name to
the other one, the node that moved, and the names afterwards.  Nothing moves if the old name is
unknown or both names are of one node. -/
def rename (old new : Dentry) : Option (Option NodeId × NodeId × Namespace) :=
  match ns.byName[old]? with
  | none => none
  | some source =>
    if ns.byName[new]? = some source then none
    else
      let (replaced, ns) := ns.remove new
      some (replaced, source, (ns.remove old).2.addAlias source new)

/-! ## The node of a name and the names of a node -/

variable {ns} {d d' : Dentry} {id k : NodeId}

theorem byName_addAlias :
    (ns.addAlias id d).byName[d']? = if d = d' then some id else ns.byName[d']? := by
  simp [addAlias, ExtTreeMap.getElem?_insert]

theorem firstName_mem (first : ns.firstName id = some d) : d ∈ ns.names id := by
  rw [firstName_eq_min] at first
  exact ExtTreeSet.min?_mem first

theorem names_addAlias :
    (ns.addAlias id d).names k = if id = k then (ns.names id).insert d else ns.names k := by
  simp [addAlias, names, ExtTreeMap.getD_insert]

theorem aliases_addAlias {s : ExtTreeSet Dentry} (listed : (ns.addAlias id d).aliases[k]? = some s) :
    s.isEmpty = false ∨ ns.aliases[k]? = some s := by
  simp only [addAlias, ExtTreeMap.getElem?_insert] at listed
  split at listed
  · cases listed
    simp
  · exact .inr listed

theorem inserted_byName {next : Nat} : (ns.inserted d id next).byName = (ns.addAlias id d).byName :=
  rfl

theorem inserted_aliases {next : Nat} :
    (ns.inserted d id next).aliases = (ns.addAlias id d).aliases := rfl

theorem remove_unknown (unknown : ns.byName[d]? = none) : ns.remove d = (none, ns) := by
  simp only [remove, unknown]

theorem remove_fst : (ns.remove d).1 = ns.byName[d]? := by
  cases known : ns.byName[d]? <;> simp [remove, known]

@[simp] theorem remove_keys : (ns.remove d).2.keys = ns.keys := by
  cases known : ns.byName[d]? <;> simp [remove, known]

@[simp] theorem remove_nextKey : (ns.remove d).2.nextKey = ns.nextKey := by
  cases known : ns.byName[d]? <;> simp [remove, known]

theorem byName_remove : (ns.remove d).2.byName[d']? = if d = d' then none else ns.byName[d']? := by
  cases known : ns.byName[d]? with
  | none =>
      simp only [remove, known]
      split
      · rename_i same
        rw [← same, known]
      · rfl
  | some id => simp [remove, known, ExtTreeMap.getElem?_erase]

/-- Each name is among the names of its node and of no other, and a node listed with names has
some. -/
structure Coherent (ns : Namespace) : Prop where
  mem : ∀ d id, ns.byName[d]? = some id ↔ d ∈ ns.names id
  inhabited : ∀ (id : NodeId) (s : ExtTreeSet Dentry), ns.aliases[id]? = some s → s.isEmpty = false

theorem new_coherent : new.Coherent where
  mem d id := by simp [new, names]
  inhabited id s listed := by simp [new] at listed

theorem names_remove (known : ns.byName[d]? = some id) :
    (ns.remove d).2.names k = if id = k then (ns.names id).erase d else ns.names k := by
  simp only [remove, known, names]
  cases listed : ns.aliases[id]? with
  | none =>
      dsimp only
      split
      · rename_i same
        subst same
        simp [ExtTreeMap.getD_eq_getD_getElem?, listed]
      · rfl
  | some s =>
      have all : ns.aliases.getD id ∅ = s := by simp [ExtTreeMap.getD_eq_getD_getElem?, listed]
      dsimp only
      rw [all]
      split
      · rename_i empty
        rw [ExtTreeMap.getD_erase]
        simp only [LawfulEqCmp.compare_eq_iff_eq]
        split
        · exact (ExtTreeSet.isEmpty_iff.mp empty).symm
        · rfl
      · rw [ExtTreeMap.getD_insert]
        simp only [LawfulEqCmp.compare_eq_iff_eq]

theorem aliases_remove {s : ExtTreeSet Dentry} (listed : (ns.remove d).2.aliases[k]? = some s) :
    s.isEmpty = false ∨ ns.aliases[k]? = some s := by
  cases known : ns.byName[d]? with
  | none => exact .inr (by simpa [remove, known] using listed)
  | some id =>
      simp only [remove, known] at listed
      split at listed
      · exact .inr listed
      · split at listed
        · rw [ExtTreeMap.getElem?_erase] at listed
          split at listed
          · cases listed
          · exact .inr listed
        · rename_i names _ some_left
          rw [ExtTreeMap.getElem?_insert] at listed
          split at listed
          · cases listed
            exact .inl (by simpa using some_left)
          · exact .inr listed

namespace Coherent

theorem remove (coherent : ns.Coherent) (d : Dentry) : (ns.remove d).2.Coherent where
  mem d' k := by
    cases known : ns.byName[d]? with
    | none => rw [remove_unknown known]; exact coherent.mem d' k
    | some id =>
        rw [byName_remove, names_remove known]
        by_cases same : d = d'
        · subst same
          by_cases own : id = k
          · simp [own]
          · have other : d ∉ ns.names k := fun mem => by
              rw [← coherent.mem, known] at mem
              exact own (Option.some.inj mem)
            simp [own, other]
        · by_cases own : id = k
          · subst own
            simp [same, coherent.mem]
          · simp [same, own, coherent.mem]
  inhabited k s listed := by
    rcases aliases_remove listed with some_left | old
    · exact some_left
    · exact coherent.inhabited k s old

theorem addAlias (coherent : ns.Coherent) (unknown : ns.byName[d]? = none) (id : NodeId) :
    (ns.addAlias id d).Coherent where
  mem d' k := by
    rw [byName_addAlias, names_addAlias]
    have absent : ∀ k, d ∉ ns.names k := fun k mem => by
      rw [← coherent.mem, unknown] at mem
      cases mem
    by_cases same : d = d'
    · subst same
      by_cases own : id = k
      · simp [own]
      · simp [own, absent]
    · by_cases own : id = k
      · subst own
        simp [same, coherent.mem]
      · simp [same, own, coherent.mem]
  inhabited k s listed := by
    rcases aliases_addAlias listed with some_left | old
    · exact some_left
    · exact coherent.inhabited k s old

theorem inserted (coherent : ns.Coherent) (unknown : ns.byName[d]? = none) (id : NodeId)
    (next : Nat) : (ns.inserted d id next).Coherent :=
  ⟨(coherent.addAlias unknown id).mem, (coherent.addAlias unknown id).inhabited⟩

/-- A node with a name has a first one. -/
theorem firstName_isSome (coherent : ns.Coherent) (known : ns.byName[d]? = some id) :
    ∃ first, ns.firstName id = some first := by
  cases none_first : ns.firstName id with
  | some first => exact ⟨first, rfl⟩
  | none =>
      rw [firstName_eq_min] at none_first
      have empty : ns.names id = ∅ := ExtTreeSet.min?_eq_none_iff.mp none_first
      rw [coherent.mem, empty] at known
      simp at known

theorem firstName_known (coherent : ns.Coherent) (first : ns.firstName id = some d) :
    ns.byName[d]? = some id :=
  (coherent.mem d id).mpr (firstName_mem first)

end Coherent

theorem mem_names_remove : d' ∈ (ns.remove d).2.names k ↔
    d' ∈ ns.names k ∧ ¬(ns.byName[d]? = some k ∧ d' = d) := by
  cases known : ns.byName[d]? with
  | none =>
      rw [remove_unknown known]
      simp
  | some id =>
      rw [names_remove known]
      split
      · rename_i same
        subst same
        simp [eq_comm (a := d), and_comm]
      · rename_i other
        simp [other]

theorem mem_names_addAlias : d' ∈ (ns.addAlias id d).names k ↔
    (k = id ∧ d' = d) ∨ d' ∈ ns.names k := by
  rw [names_addAlias]
  split
  · rename_i same
    subst same
    simp [eq_comm (a := d)]
  · rename_i other
    simp [Ne.symm other]

theorem size_ne_zero {s : ExtTreeSet Dentry} (mem : d ∈ s) : s.size ≠ 0 := by
  intro zero
  rw [← ExtTreeSet.eq_empty_iff_size_eq_zero] at zero
  rw [zero] at mem
  simp at mem

theorem size_names_remove (known : ns.byName[d]? = some id) (mem : d ∈ ns.names id) :
    ((ns.remove d).2.names k).size + (if id = k then 1 else 0) = (ns.names k).size := by
  rw [names_remove known]
  split
  · rename_i same
    subst same
    have pos := size_ne_zero mem
    rw [ExtTreeSet.size_erase, if_pos (ExtTreeSet.contains_iff_mem.mpr mem)]
    omega
  · rfl

theorem names_remove_mem (known : ns.byName[d]? = some id) (mem : d' ∈ (ns.remove d).2.names k) :
    d' ∈ ns.names k := by
  rw [names_remove known] at mem
  split at mem
  · rename_i same
    subst same
    exact ExtTreeSet.mem_of_mem_erase mem
  · exact mem

theorem size_names_addAlias (absent : d ∉ ns.names id) :
    ((ns.addAlias id d).names k).size = (ns.names k).size + if id = k then 1 else 0 := by
  rw [names_addAlias]
  split
  · rename_i same
    subst same
    rw [ExtTreeSet.size_insert, if_neg (fun h => absent (ExtTreeSet.contains_iff_mem.mp h))]
  · rfl

theorem size_names_addAlias_le :
    ((ns.addAlias id d).names k).size ≤ (ns.names k).size + if id = k then 1 else 0 := by
  rw [names_addAlias]
  split
  · rename_i same
    subst same
    exact ExtTreeSet.size_insert_le
  · exact Nat.le_refl _

theorem rename_eq_some {old new : Dentry} {replaced : Option NodeId} {source : NodeId}
    {ns' : Namespace} (renamed : ns.rename old new = some (replaced, source, ns')) :
    ns.byName[old]? = some source ∧ ns.byName[new]? ≠ some source ∧ replaced = ns.byName[new]? ∧
      ns' = ((ns.remove new).2.remove old).2.addAlias source new := by
  unfold rename at renamed
  split at renamed
  · cases renamed
  · rename_i source' known
    split at renamed
    · cases renamed
    · rename_i different
      simp only [Option.some.injEq, Prod.mk.injEq] at renamed
      obtain ⟨rfl, rfl, rfl⟩ := renamed
      exact ⟨known, different, remove_fst, rfl⟩

theorem rename_eq_none {old new : Dentry} (nothing : ns.rename old new = none) :
    ns.byName[old]? = none ∨ ∃ source, ns.byName[old]? = some source ∧
      ns.byName[new]? = some source := by
  unfold rename at nothing
  split at nothing
  · rename_i unknown
    exact .inl unknown
  · rename_i source known
    split at nothing
    · rename_i same
      exact .inr ⟨source, known, same⟩
    · cases nothing

/-- The node of each name after a rename. -/
theorem byName_rename {old new : Dentry} {replaced : Option NodeId} {source : NodeId}
    {ns' : Namespace} (renamed : ns.rename old new = some (replaced, source, ns')) :
    ns'.byName[d]? = if new = d then some source else if old = d then none else ns.byName[d]? := by
  obtain ⟨-, -, -, rfl⟩ := rename_eq_some renamed
  rw [byName_addAlias, byName_remove, byName_remove]
  split <;> rfl

/-- The names of each node after a rename. -/
theorem mem_names_rename {old new : Dentry} {replaced : Option NodeId} {source : NodeId}
    {ns' : Namespace} (renamed : ns.rename old new = some (replaced, source, ns')) :
    d ∈ ns'.names k ↔ (k = source ∧ d = new) ∨
      (d ∈ ns.names k ∧ ¬(ns.byName[new]? = some k ∧ d = new) ∧ ¬(source = k ∧ d = old)) := by
  obtain ⟨known, different, -, rfl⟩ := rename_eq_some renamed
  have apart : new ≠ old := fun same => different (same ▸ known)
  have known' : (ns.remove new).2.byName[old]? = some source := by
    rw [byName_remove, if_neg apart, known]
  rw [mem_names_addAlias, mem_names_remove, mem_names_remove, known', Option.some.injEq, and_assoc]

/-! ## Names are among the names of their nodes -/

/-- Each name is among the names of its node. -/
def Named (ns : Namespace) : Prop :=
  ∀ (d : Dentry) (id : NodeId), ns.byName[d]? = some id → d ∈ ns.names id

theorem new_named : new.Named := fun d id known => by simp [new] at known

theorem Named.addAlias (named : ns.Named) (id : NodeId) (d : Dentry) : (ns.addAlias id d).Named := by
  intro d' k known
  rw [byName_addAlias] at known
  rw [mem_names_addAlias]
  split at known
  · rename_i same
    cases known
    exact .inl ⟨rfl, same.symm⟩
  · exact .inr (named d' k known)

theorem Named.remove (named : ns.Named) (d : Dentry) : (ns.remove d).2.Named := by
  intro d' k known
  rw [byName_remove] at known
  split at known
  · cases known
  · rename_i other
    exact mem_names_remove.mpr ⟨named d' k known, fun ⟨_, same⟩ => other same.symm⟩

theorem Named.rename (named : ns.Named) {old new : Dentry} {replaced : Option NodeId}
    {source : NodeId} {ns' : Namespace}
    (renamed : ns.rename old new = some (replaced, source, ns')) : ns'.Named := by
  obtain ⟨-, -, -, rfl⟩ := rename_eq_some renamed
  exact ((named.remove new).remove old).addAlias source new

/-! ## Paths -/

/-- The first names from the root down to `id`. -/
inductive HasPath (ns : Namespace) : NodeId → Path → Prop
  | root : HasPath ns NodeId.root []
  | child {id : NodeId} {first : Dentry} {p : Path} (below : id ≠ NodeId.root)
      (named : ns.firstName id = some first) (parent : HasPath ns first.parent p) :
    HasPath ns id (p ++ [first.name])

theorem pathIn_hasPath {fuel : Nat} {p : Path} (path : ns.pathIn fuel id = some (some p)) :
    ns.HasPath id p := by
  induction fuel generalizing id p with
  | zero =>
      unfold pathIn at path
      split at path
      · rename_i root
        cases path
        exact root ▸ .root
      · split at path <;> simp_all
  | succ fuel ih =>
      unfold pathIn at path
      split at path
      · rename_i root
        cases path
        exact root ▸ .root
      · rename_i below
        split at path
        · cases path
        · simp_all
        · rename_i first fuel' named eq
          cases eq
          simp only [Option.map_eq_some_iff] at path
          obtain ⟨_, rest, q, rfl, rfl⟩ := path
          exact .child below named (ih rest)

theorem HasPath.pathIn {p : Path} (path : ns.HasPath id p) {fuel : Nat} (enough : p.length ≤ fuel) :
    ns.pathIn fuel id = some (some p) := by
  induction path generalizing fuel with
  | root => unfold Namespace.pathIn; exact if_pos rfl
  | @child id first p below named _ ih =>
      rw [List.length_append, List.length_singleton] at enough
      obtain ⟨fuel, rfl⟩ : ∃ n, fuel = n + 1 := ⟨fuel - 1, by omega⟩
      unfold Namespace.pathIn
      rw [if_neg below, named]
      dsimp only
      rw [ih (by omega)]
      rfl

theorem HasPath.unique {p q : Path} (path : ns.HasPath id p) (path' : ns.HasPath id q) : p = q := by
  have long := path.pathIn (Nat.le_max_left p.length q.length)
  rw [path'.pathIn (Nat.le_max_right p.length q.length)] at long
  cases long
  rfl

/-- The nodes on the way to `id` are different and all have names. -/
theorem HasPath.chain {p : Path} (path : ns.HasPath id p) :
    ∃ ids : List NodeId, ids.length = p.length ∧ ids.Nodup ∧
      ∀ k ∈ ids, k ∈ ns.aliases ∧ ∃ q, ns.HasPath k q ∧ q.length ≤ p.length := by
  induction path with
  | root => exact ⟨[], rfl, .nil, by simp⟩
  | @child id first p below named parent ih =>
      obtain ⟨ids, length, nodup, ways⟩ := ih
      have path := HasPath.child below named parent
      have fresh : id ∉ ids := fun mem => by
        obtain ⟨-, q, way, short⟩ := ways id mem
        rw [way.unique path, List.length_append, List.length_singleton] at short
        omega
      have listed : id ∈ ns.aliases := by
        refine Decidable.byContradiction fun missing => ?_
        have mem := firstName_mem named
        simp [names, ExtTreeMap.getD_eq_fallback missing] at mem
      refine ⟨id :: ids, by simp [length], List.nodup_cons.mpr ⟨fresh, nodup⟩, ?_⟩
      intro k mem
      rcases List.mem_cons.mp mem with rfl | mem
      · exact ⟨listed, _, path, Nat.le_refl _⟩
      · obtain ⟨listed, q, way, short⟩ := ways k mem
        refine ⟨listed, q, way, ?_⟩
        rw [List.length_append]
        omega

theorem HasPath.length_le {p : Path} (path : ns.HasPath id p) : p.length ≤ ns.aliases.size := by
  obtain ⟨ids, length, nodup, ways⟩ := path.chain
  have sub : ids ⊆ ns.aliases.keys := fun k mem => ExtTreeMap.mem_keys.mpr (ways k mem).1
  rw [← length, ← ExtTreeMap.length_keys]
  exact (nodup.subperm sub).length_le

theorem hasPath_iff {p : Path} : ns.HasPath id p ↔ ns.pathFor id = some (some p) :=
  ⟨fun path => path.pathIn path.length_le, pathIn_hasPath⟩

/-- First names that stay keep the paths built from them. -/
theorem HasPath.mono {ns' : Namespace} {p : Path} (path : ns.HasPath id p)
    (stay : ∀ k first, k ≠ NodeId.root → ns.firstName k = some first →
      ns'.firstName k = some first) : ns'.HasPath id p := by
  induction path with
  | root => exact .root
  | child below named _ ih => exact .child below (stay _ _ below named) ih

/-- An id whose path can be built. -/
def Placed (ns : Namespace) (id : NodeId) : Prop := ∃ p, ns.HasPath id p

/-- The root, or a node with a name. -/
def Anchored (ns : Namespace) (id : NodeId) : Prop :=
  id = NodeId.root ∨ ∃ d, d ∈ ns.names id

theorem HasPath.anchored {ns : Namespace} {id : NodeId} {p : Path}
    (path : ns.HasPath id p) : ns.Anchored id := by
  cases path with
  | root => exact .inl rfl
  | child below named parent => exact .inr ⟨_, firstName_mem named⟩

theorem Placed.anchored {ns : Namespace} {id : NodeId} (placed : ns.Placed id) : ns.Anchored id := by
  obtain ⟨p, path⟩ := placed
  exact path.anchored

/-- A name given to one node is nothing to the others. -/
theorem firstName_addAlias {ns : Namespace} {d : Dentry} {id k : NodeId} (other : k ≠ id) :
    (ns.addAlias id d).firstName k = ns.firstName k := by
  rw [firstName, names_addAlias, if_neg (Ne.symm other), ← firstName]

theorem firstName_remove {ns : Namespace} {d : Dentry} {id k : NodeId}
    (known : ns.byName[d]? = some id) (other : k ≠ id) :
    (ns.remove d).2.firstName k = ns.firstName k := by
  rw [firstName, names_remove known, if_neg (Ne.symm other), ← firstName]

/-- A first name stays first when another name goes. -/
theorem firstName_remove_of_ne {ns : Namespace} {d first : Dentry} {k : NodeId}
    (named : ns.firstName k = some first) (ne : first ≠ d) :
    (ns.remove d).2.firstName k = some first := by
  cases known : ns.byName[d]? with
  | none =>
      rw [remove_unknown known]
      exact named
  | some id =>
      by_cases own : k = id
      · subst own
        rw [firstName_eq_min] at named ⊢
        rw [names_remove known, if_pos rfl, ← named]
        refine ExtTreeSet.min?_erase_eq_of_not_compare_eq_min? fun {km} least same => ?_
        rw [named] at least
        cases least
        exact ne (LawfulEqCmp.compare_eq_iff_eq.mp same).symm
      · rw [firstName_remove known own]
        exact named

/-- First names that stay keep what can be reached by them. -/
theorem Placed.mono {ns ns' : Namespace} {id : NodeId} (placed : ns.Placed id)
    (stay : ∀ k first, k ≠ NodeId.root → ns.firstName k = some first →
      ns'.firstName k = some first) : ns'.Placed id := by
  obtain ⟨p, path⟩ := placed
  exact ⟨p, path.mono stay⟩

theorem Placed.usedKey {ns : Namespace} {id : NodeId} {next : Nat} (placed : ns.Placed id) :
    Placed { ns with nextKey := next } id :=
  placed.mono fun _ _ _ named => named

/-- A name for a node without names changes no path. -/
theorem Placed.addAlias {ns : Namespace} {d : Dentry} {id k : NodeId}
    (nameless : ns.firstName id = none) (placed : ns.Placed k) : (ns.addAlias id d).Placed k := by
  refine placed.mono fun k first _ named => ?_
  have other : k ≠ id := by
    rintro rfl
    rw [nameless] at named
    cases named
  rw [firstName_addAlias other]
  exact named

/-- The way to a directory is not by a name in it. -/
theorem Placed.remove {ns : Namespace} {d : Dentry} (placed : ns.Placed d.parent) :
    (ns.remove d).2.Placed d.parent := by
  obtain ⟨p, path⟩ := placed
  -- Along the way paths get shorter, and below `d` they would be longer than `p`.
  have short : ∀ k q, ns.HasPath k q → q.length ≤ p.length → (ns.remove d).2.HasPath k q := by
    intro k q way
    induction way with
    | root => exact fun _ => .root
    | @child k first q below named parent ih =>
        intro le
        rw [List.length_append, List.length_singleton] at le
        have ne : first ≠ d := by
          rintro rfl
          rw [parent.unique path] at le
          omega
        exact .child below (firstName_remove_of_ne named ne) (ih (by omega))
  exact ⟨p, short d.parent p path (Nat.le_refl _)⟩

end Namespace

end TypedFuse
