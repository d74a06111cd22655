import TypedFuse.Path.Adapter

/-!
# Nodes under names

How the node table of the runtime and the names of the path adapter change together.
`NodeTable.Trims` is for the sections of the table that change no link; `Wired` is what the others
keep, whatever the wrapped filesystem answers, with one lemma for each way the two change.
-/

namespace TypedFuse

open Std NodeTable

/-! ## Sections that change no link -/

section Trims

variable {N : Type} {t t' t'' : NodeTable N} {id : NodeId} {slot slot' : Slot N}

/-- Only slots without links go, and what stays keeps its record, links, parent and generation. -/
structure NodeTable.Trims (t t' : NodeTable N) : Prop where
  stays : ∀ (id : NodeId) (slot : Slot N), t.map[id]? = some slot → slot.links ≠ 0 →
    ∃ slot' : Slot N, t'.map[id]? = some slot'
  same : ∀ (id : NodeId) (slot' : Slot N), t'.map[id]? = some slot' → ∃ slot : Slot N,
    t.map[id]? = some slot ∧ slot'.record = slot.record ∧ slot'.links = slot.links ∧
      slot'.parent = slot.parent ∧ slot'.generation = slot.generation

theorem NodeTable.Trims.refl (t : NodeTable N) : t.Trims t :=
  ⟨fun _ slot live _ => ⟨slot, live⟩, fun _ slot live => ⟨slot, live, rfl, rfl, rfl, rfl⟩⟩

theorem NodeTable.Trims.trans (first : t.Trims t') (second : t'.Trims t'') : t.Trims t'' := by
  constructor
  case stays =>
      intro id slot live links
      obtain ⟨slot', live'⟩ := first.stays id slot live links
      obtain ⟨slot₀, live₀, -, links', -, -⟩ := first.same id slot' live'
      rw [live] at live₀
      cases live₀
      exact second.stays id slot' live' (links' ▸ links)
  case same =>
      intro id slot'' live''
      obtain ⟨slot', live', record', links', parent', generation'⟩ := second.same id slot'' live''
      obtain ⟨slot, live, record, links, parent, generation⟩ := first.same id slot' live'
      exact ⟨slot, live, record'.trans record, links'.trans links, parent'.trans parent,
        generation'.trans generation⟩

theorem NodeTable.trims_settle (live : t.map[id]? = some slot) (record : slot'.record = slot.record)
    (links : slot'.links = slot.links) (parent : slot'.parent = slot.parent)
    (generation : slot'.generation = slot.generation) : t.Trims (t.settle id slot') := by
  constructor
  case stays =>
      intro k s live' held
      rw [settle_map]
      split
      · rename_i same
        subst same
        rw [live] at live'
        cases live'
        have keep : slot'.droppable = false := Slot.held_iff.mpr (.inl (links ▸ held))
        exact ⟨slot', by simp [keep]⟩
      · exact ⟨s, live'⟩
  case same =>
      intro k s live'
      rw [settle_map] at live'
      split at live'
      · rename_i same
        subst same
        split at live'
        · cases live'
        · cases live'
          exact ⟨slot, live, record, links, parent, generation⟩
      · exact ⟨s, live', rfl, rfl, rfl, rfl⟩

theorem NodeTable.trims_get (t : NodeTable N) (id : NodeId) : t.Trims (t.get id).2 := by
  rcases get_cases t id with ⟨-, eq⟩ | eq | ⟨slot, live, eq⟩
  · rw [eq]; exact .refl t
  · rw [eq]; exact .refl t
  · rw [eq]; exact trims_settle live rfl rfl rfl rfl

theorem NodeTable.trims_dropRef (tidy : t.Tidy) (r : Lease) : t.Trims (t.dropRef r) := by
  rcases dropRef_cases tidy r with eq | ⟨slot, live, -, eq⟩
  · rw [eq]; exact .refl t
  · rw [eq]; exact trims_settle live rfl rfl rfl rfl

theorem NodeTable.trims_retainLookup (t : NodeTable N) (id : NodeId) :
    t.Trims (t.retainLookup id).2 := by
  rcases retainLookup_cases t id with ⟨-, eq⟩ | eq | ⟨slot, live, eq⟩
  · rw [eq]; exact .refl t
  · rw [eq]; exact .refl t
  · rw [eq]; exact trims_settle live rfl rfl rfl rfl

theorem NodeTable.trims_beginForget (tidy : t.Tidy) (ino nlookup : Nat) :
    t.Trims (t.beginForget ino nlookup).2 := by
  rcases beginForget_cases tidy ino nlookup with
    ⟨-, eq⟩ | ⟨slot, live, ⟨-, -, eq⟩ | eq | ⟨-, eq⟩⟩
  · rw [eq]; exact .refl t
  · rw [eq]; exact trims_settle live rfl rfl rfl rfl
  · rw [eq]; exact trims_settle live rfl rfl rfl rfl
  · rw [eq]; exact trims_settle live rfl rfl rfl rfl

theorem NodeTable.trims_addOpen (t : NodeTable N) (ino : Nat) : t.Trims (t.addOpen ino).2 := by
  rcases addOpen_cases t ino with ⟨-, eq⟩ | eq | ⟨slot, live, eq⟩
  · rw [eq]; exact .refl t
  · rw [eq]; exact .refl t
  · rw [eq]; exact trims_settle live rfl rfl rfl rfl

theorem NodeTable.trims_removeOpen (tidy : t.Tidy) (ino : Nat) : t.Trims (t.removeOpen ino) := by
  rcases removeOpen_cases tidy ino with ⟨-, eq⟩ | ⟨slot, live, eq⟩
  · rw [eq]; exact .refl t
  · rw [eq]; exact trims_settle live rfl rfl rfl rfl

/-! ## Sections that change links and parents -/

theorem NodeTable.removeLink_old (tidy : t.Tidy) {k : NodeId}
    (live : (t.removeLink id).map[k]? = some slot') : ∃ slot : Slot N, t.map[k]? = some slot ∧
      slot'.record = slot.record ∧ slot'.parent = slot.parent ∧
      slot'.generation = slot.generation ∧ slot'.links = slot.links - if id = k then 1 else 0 := by
  rcases removeLink_cases tidy id with ⟨dead, eq⟩ | ⟨slot, live', eq⟩
  · rw [eq] at live
    have other : id ≠ k := fun same => by
      rw [same, live] at dead
      cases dead
    exact ⟨slot', live, rfl, rfl, rfl, by simp [other]⟩
  · rw [eq, settle_map] at live
    split at live
    · rename_i same
      subst same
      split at live
      · cases live
      · cases live
        exact ⟨slot, live', rfl, rfl, rfl, by simp⟩
    · rename_i other
      exact ⟨slot', live, rfl, rfl, rfl, by simp [other]⟩

/-- A slot goes only with its last link. -/
theorem NodeTable.removeLink_stays (tidy : t.Tidy) {k : NodeId} (live : t.map[k]? = some slot)
    (held : slot.links - (if id = k then 1 else 0) ≠ 0) :
    ∃ slot' : Slot N, (t.removeLink id).map[k]? = some slot' := by
  rcases removeLink_cases tidy id with ⟨-, eq⟩ | ⟨slot', live', eq⟩
  · exact ⟨slot, by rw [eq, live]⟩
  · rw [eq, settle_map]
    split
    · rename_i same
      subst same
      rw [live] at live'
      cases live'
      rw [if_pos rfl] at held
      have keep : ({ slot with links := slot.links - 1 } : Slot N).droppable = false :=
        Slot.held_iff.mpr (.inl held)
      exact ⟨_, by rw [keep]; rfl⟩
    · exact ⟨slot, live⟩

theorem NodeTable.removeLink_tidy (tidy : t.Tidy) (id : NodeId) : (t.removeLink id).Tidy := by
  rcases removeLink_cases tidy id with ⟨-, eq⟩ | ⟨slot, live, eq⟩
  · exact eq.symm ▸ tidy
  · exact eq.symm ▸ tidy.settle

theorem NodeTable.reparent_map (tidy : t.Tidy) (live : t.map[id]? = some slot) (parent k : NodeId) :
    (t.reparent id parent).map[k]? =
      if id = k then some { slot with parent := parent } else t.map[k]? := by
  rcases reparent_cases tidy id parent with ⟨dead, -⟩ | ⟨slot', live', eq⟩
  · rw [live] at dead
    cases dead
  · rw [live] at live'
    cases live'
    have keep : ({ slot with parent := parent } : Slot N).droppable = false := tidy id slot live
    rw [eq, settle_map, keep]
    rfl

/-- A slot put back keeps its record. -/
theorem NodeTable.settle_record {slot₁ : Slot N} {k : NodeId} (live : t.map[id]? = some slot)
    (live' : (t.settle id slot').map[k]? = some slot₁) (record : slot'.record = slot.record) :
    ∃ slot₀ : Slot N, t.map[k]? = some slot₀ ∧ slot₁.record = slot₀.record := by
  rw [settle_map] at live'
  split at live'
  · rename_i same
    subst same
    split at live'
    · cases live'
    · cases live'
      exact ⟨slot, live, record⟩
  · exact ⟨slot₁, live', rfl⟩

theorem NodeTable.addLink_map (live : t.map[id]? = some slot)
    (add : t.addLink id = (some (), t')) (k : NodeId) :
    t'.map[k]? = if id = k then some { slot with links := slot.links + 1 } else t.map[k]? := by
  rcases addLink_cases t id with ⟨dead, -⟩ | eq | ⟨slot', live', eq⟩
  · rw [live] at dead
    cases dead
  · rw [add] at eq
    cases eq
  · rw [live] at live'
    cases live'
    rw [add] at eq
    rw [(Prod.mk.inj eq).2, settle_map, Slot.held_iff.mpr (.inl (Nat.succ_ne_zero _))]
    rfl

end Trims

/-! ## Keys -/

section Keyed

variable {P : PathTypes} {t t' : NodeTable (PathNode P)} {ns ns' : Namespace} {d : Dentry}
  {id : NodeId}

/-- A live node is found under its key, and keys are given out in order. -/
structure Keyed (t : NodeTable (PathNode P)) (ns : Namespace) : Prop where
  keyed : ∀ (id : NodeId) (slot : Slot (PathNode P)), t.map[id]? = some slot →
    ns.keys[slot.record.payload.key]? = some id
  below : ∀ (key : Nat) (id : NodeId), ns.keys[key]? = some id → key < ns.nextKey

namespace Keyed

theorem new (root : PathNode P) (key : root.key = 1) : Keyed (.withRoot root) .new where
  keyed id slot live := by
    rw [withRoot_map] at live
    split at live
    · rename_i same
      cases live
      simp [Namespace.new, freshSlot, key, same.symm]
    · cases live
  below key id known := by
    simp only [Namespace.new, ExtTreeMap.getElem?_insert] at known ⊢
    split at known
    · rename_i same
      rw [LawfulEqCmp.compare_eq_iff_eq] at same
      omega
    · simp at known

/-- It is all the same if no record is new. -/
theorem of_records (keyed : Keyed t ns)
    (records : ∀ (k : NodeId) (slot' : Slot (PathNode P)), t'.map[k]? = some slot' →
      ∃ slot : Slot (PathNode P), t.map[k]? = some slot ∧ slot'.record = slot.record)
    (keys : ns'.keys = ns.keys) (next : ns'.nextKey = ns.nextKey) : Keyed t' ns' where
  keyed id slot' live' := by
    obtain ⟨slot, live, record⟩ := records id slot' live'
    rw [keys, record]
    exact keyed.keyed id slot live
  below key id known := by
    rw [keys] at known
    rw [next]
    exact keyed.below key id known

theorem trims (keyed : Keyed t ns) (trims : t.Trims t') : Keyed t' ns :=
  keyed.of_records (fun k slot' live' => by
    obtain ⟨slot, live, record, -⟩ := trims.same k slot' live'
    exact ⟨slot, live, record⟩) rfl rfl

theorem removeLink (keyed : Keyed t ns) (tidy : t.Tidy) (id : NodeId) : Keyed (t.removeLink id) ns :=
  keyed.of_records (fun k slot' live' => by
    obtain ⟨slot, live, record, -⟩ := removeLink_old tidy live'
    exact ⟨slot, live, record⟩) rfl rfl

theorem reparent (keyed : Keyed t ns) (tidy : t.Tidy) (id parent : NodeId) :
    Keyed (t.reparent id parent) ns := by
  rcases reparent_cases tidy id parent with ⟨-, eq⟩ | ⟨slot, live, eq⟩
  · rw [eq]
    exact keyed
  · rw [eq]
    exact keyed.of_records (fun k slot' live' => settle_record live live' rfl) rfl rfl

theorem addLink (keyed : Keyed t ns) (id : NodeId) : Keyed (t.addLink id).2 ns := by
  rcases addLink_cases t id with ⟨-, eq⟩ | eq | ⟨slot, live, eq⟩
  · rw [eq]
    exact keyed
  · rw [eq]
    exact keyed
  · rw [eq]
    exact keyed.of_records (fun k slot' live' => settle_record live live' rfl) rfl rfl

/-- Names that come and go leave the keys alone. -/
theorem remove (keyed : Keyed t ns) (d : Dentry) : Keyed t (ns.remove d).2 :=
  keyed.of_records (fun _ slot live => ⟨slot, live, rfl⟩) Namespace.remove_keys
    Namespace.remove_nextKey

theorem addAlias (keyed : Keyed t ns) (id : NodeId) (d : Dentry) : Keyed t (ns.addAlias id d) :=
  keyed.of_records (fun _ slot live => ⟨slot, live, rfl⟩) rfl rfl

/-- `rename` of names, with the links and the parent pointer that go with it. -/
theorem rename (keyed : Keyed t ns) (tidy : t.Tidy) {old new : Dentry} {replaced : Option NodeId}
    {source : NodeId} (renamed : ns.rename old new = some (replaced, source, ns')) :
    Keyed ((replaced.elim t t.removeLink).reparent source new.parent) ns' := by
  obtain ⟨-, -, -, rfl⟩ := Namespace.rename_eq_some renamed
  refine Keyed.addAlias (.remove (.remove ?_ new) old) source new
  cases replaced with
  | none => exact keyed.reparent tidy source new.parent
  | some id => exact (keyed.removeLink tidy id).reparent (removeLink_tidy tidy id) source new.parent

/-- A key used up by a panic. -/
theorem usedKey (keyed : Keyed t ns) : Keyed t { ns with nextKey := ns.nextKey + 1 } where
  keyed := keyed.keyed
  below key id known := Nat.lt_succ_of_lt (keyed.below key id known)

/-- A new node with the next key. -/
theorem insert (wired : Keyed t ns) {given : List (Nat × Nat)} (num : t.Numbered given)
    {state : P.NodeState} (insert : t.insert ⟨ns.nextKey, state⟩ d.parent = (some id, t')) :
    Keyed t' (ns.inserted d id (ns.nextKey + 1)) := by
  obtain ⟨dead, generation, map⟩ := num.insert_map insert
  constructor
  case keyed =>
      intro k slot live
      rw [map] at live
      simp only [Namespace.inserted, ExtTreeMap.getElem?_insert, LawfulEqCmp.compare_eq_iff_eq]
      split at live
      · rename_i same
        cases live
        simp [freshSlot, same]
      · have keyed := wired.keyed k slot live
        have := wired.below _ k keyed
        rw [if_neg (by omega), keyed]
  case below =>
      intro key k known
      simp only [Namespace.inserted, ExtTreeMap.getElem?_insert, LawfulEqCmp.compare_eq_iff_eq]
        at known ⊢
      split at known
      · omega
      · have := wired.below key k known
        omega

end Keyed

end Keyed

/-! ## The wiring -/

variable {P : PathTypes} {t t' : NodeTable (PathNode P)} {ns : Namespace} {d : Dentry} {id : NodeId}
  {slot : Slot (PathNode P)}

/-- What holds of the names `ns` and the node table `t` whatever the wrapped filesystem answers: a
node has no more names than links, and a node with names is live. -/
structure Wired (t : NodeTable (PathNode P)) (ns : Namespace) : Prop extends Keyed t ns where
  named : ns.Named
  enough : ∀ (id : NodeId) (slot : Slot (PathNode P)), t.map[id]? = some slot →
    ((ns.names id).size + if id = NodeId.root then 1 else 0) ≤ slot.links
  live : ∀ (d : Dentry) (id : NodeId), d ∈ ns.names id →
    ∃ slot : Slot (PathNode P), t.map[id]? = some slot
  root : ∃ slot : Slot (PathNode P), t.map[NodeId.root]? = some slot

namespace Wired

theorem new (root : PathNode P) (key : root.key = 1) : Wired (.withRoot root) .new where
  toKeyed := .new root key
  named := Namespace.new_named
  enough id slot live := by
    rw [withRoot_map] at live
    split at live
    · rename_i same
      cases live
      simp [Namespace.names, Namespace.new, same.symm, freshSlot]
    · cases live
  live d id mem := by simp [Namespace.names, Namespace.new] at mem
  root := ⟨_, by rw [withRoot_map, if_pos rfl]⟩

/-- A node with a name, and the root, is held by its links. -/
theorem linked (wired : Wired t ns) (live : t.map[id]? = some slot) (anchored : ns.Anchored id) :
    slot.links ≠ 0 := by
  have enough := wired.enough id slot live
  rcases anchored with root | ⟨d, mem⟩
  · rw [if_pos root] at enough
    omega
  · have := Namespace.size_ne_zero mem
    omega

theorem anchored_live (wired : Wired t ns) (anchored : ns.Anchored id) :
    ∃ slot : Slot (PathNode P), t.map[id]? = some slot := by
  rcases anchored with rfl | ⟨d, mem⟩
  · exact wired.root
  · exact wired.live d id mem

/-- A table that keeps what the links hold keeps the wiring. -/
theorem trims (wired : Wired t ns) (trims : t.Trims t') : Wired t' ns where
  toKeyed := wired.toKeyed.trims trims
  named := wired.named
  enough id slot' live' := by
    obtain ⟨slot, live, -, links, -, -⟩ := trims.same id slot' live'
    rw [links]
    exact wired.enough id slot live
  live d id mem := by
    obtain ⟨slot, live⟩ := wired.live d id mem
    exact trims.stays id slot live (wired.linked live (.inr ⟨d, mem⟩))
  root := by
    obtain ⟨slot, live⟩ := wired.root
    exact trims.stays _ slot live (wired.linked live (.inl rfl))

/-- A key used up by a panic. -/
theorem usedKey (wired : Wired t ns) : Wired t { ns with nextKey := ns.nextKey + 1 } where
  toKeyed := wired.toKeyed.usedKey
  named := wired.named
  enough := wired.enough
  live := wired.live
  root := wired.root

/-- A dead number has no names. -/
theorem names_dead (wired : Wired t ns) (dead : t.map[id]? = none) : ns.names id = ∅ := by
  refine ExtTreeSet.ext_mem fun d => ⟨fun mem => ?_, fun mem => by simp at mem⟩
  obtain ⟨slot, live⟩ := wired.live d id mem
  rw [dead] at live
  cases live

/-- A new node is not the root, and has the one name it is made with. -/
theorem insert_fresh (wired : Wired t ns) (dead : t.map[id]? = none) (next : Nat) :
    id ≠ NodeId.root ∧ ∀ k, (ns.inserted d id next).names k =
      if id = k then (∅ : ExtTreeSet Dentry).insert d else ns.names k := by
  constructor
  · intro same
    obtain ⟨slot, live⟩ := wired.root
    rw [← same, dead] at live
    cases live
  · intro k
    have names : (ns.inserted d id next).names k =
        if id = k then (ns.names id).insert d else ns.names k := Namespace.names_addAlias
    rw [names, wired.names_dead dead]

/-- A new node changes no path. -/
theorem insert_placed (wired : Wired t ns) {given : List (Nat × Nat)} (num : t.Numbered given)
    {payload : PathNode P} {parent k : NodeId} (insert : t.insert payload parent = (some id, t'))
    {next : Nat} (placed : ns.Placed k) : (ns.inserted d id next).Placed k := by
  obtain ⟨dead, -⟩ := num.insert_map insert
  have nameless : ns.firstName id = none := by
    rw [Namespace.firstName, wired.names_dead dead]
    rfl
  exact (placed.addAlias nameless).mono fun _ _ _ named => named

/-- A new node under a name. -/
theorem insert (wired : Wired t ns) {given : List (Nat × Nat)} (num : t.Numbered given)
    {state : P.NodeState} (insert : t.insert ⟨ns.nextKey, state⟩ d.parent = (some id, t')) :
    Wired t' (ns.inserted d id (ns.nextKey + 1)) := by
  obtain ⟨dead, generation, map⟩ := num.insert_map insert
  obtain ⟨notRoot, names⟩ := wired.insert_fresh (d := d) dead (ns.nextKey + 1)
  constructor
  case toKeyed => exact wired.toKeyed.insert num insert
  case named => exact wired.named.addAlias id d
  case enough =>
      intro k slot live
      rw [map] at live
      rw [names]
      split at live
      · rename_i same
        cases live
        subst same
        simp [freshSlot, notRoot, ExtTreeSet.size_insert]
      · rename_i other
        rw [if_neg other]
        exact wired.enough k slot live
  case live =>
      intro d' k mem
      rw [names] at mem
      rw [map]
      split
      · exact ⟨_, rfl⟩
      · rename_i other
        rw [if_neg other] at mem
        exact wired.live d' k mem
  case root =>
      obtain ⟨slot, live⟩ := wired.root
      exact ⟨slot, by rw [map, if_neg notRoot, live]⟩

/-- A name taken from its node, and the link with it. -/
theorem remove (wired : Wired t ns) (tidy : t.Tidy) (known : ns.byName[d]? = some id) :
    Wired (t.removeLink id) (ns.remove d).2 := by
  have sizes : ∀ k, ((ns.remove d).2.names k).size + (if id = k then 1 else 0) =
      (ns.names k).size := fun k => Namespace.size_names_remove known (wired.named d id known)
  constructor
  case toKeyed => exact (wired.toKeyed.removeLink tidy id).remove d
  case named => exact wired.named.remove d
  case enough =>
      intro k s' live'
      obtain ⟨s, live, -, -, -, links⟩ := removeLink_old tidy live'
      have enough := wired.enough k s live
      have size := sizes k
      rw [links]
      omega
  case live =>
      intro d' k mem
      obtain ⟨s, live⟩ := wired.live d' k (Namespace.names_remove_mem known mem)
      have enough := wired.enough k s live
      have size := sizes k
      have := Namespace.size_ne_zero mem
      exact removeLink_stays tidy live (by omega)
  case root =>
      obtain ⟨s, live⟩ := wired.root
      have enough := wired.enough _ s live
      have size := sizes NodeId.root
      rw [if_pos rfl] at enough
      exact removeLink_stays tidy live (by omega)

/-- A node that moves from one name to another. -/
theorem move (wired : Wired t ns) (tidy : t.Tidy) {old new : Dentry} {source : NodeId}
    (known : ns.byName[old]? = some source) :
    Wired (t.reparent source new.parent) ((ns.remove old).2.addAlias source new) := by
  have old_mem := wired.named old source known
  obtain ⟨slot, live⟩ := wired.live old source old_mem
  have map := reparent_map tidy live new.parent
  have sizes : ∀ k, (((ns.remove old).2.addAlias source new).names k).size ≤ (ns.names k).size := by
    intro k
    rw [← Namespace.size_names_remove known old_mem]
    exact Namespace.size_names_addAlias_le
  constructor
  case toKeyed =>
      exact ((wired.toKeyed.reparent tidy source new.parent).remove old).addAlias source new
  case named => exact (wired.named.remove old).addAlias source new
  case enough =>
      intro k s live'
      have size := sizes k
      rw [map] at live'
      split at live'
      · rename_i same
        cases live'
        have enough := wired.enough source slot live
        subst same
        exact Nat.le_trans (by omega) enough
      · have enough := wired.enough k s live'
        omega
  case live =>
      intro d' k mem
      rw [map]
      split
      · exact ⟨_, rfl⟩
      · rename_i other
        rw [Namespace.names_addAlias, if_neg other] at mem
        exact wired.live d' k (Namespace.names_remove_mem known mem)
  case root =>
      obtain ⟨s, live'⟩ := wired.root
      rw [map]
      split
      · exact ⟨_, rfl⟩
      · exact ⟨s, live'⟩

/-- The two names and the tables of a `rename`, with the replaced node's link gone. -/
theorem rename_parts (tidy : t.Tidy) {old new : Dentry} {replaced : Option NodeId} {source : NodeId}
    {ns' : Namespace} (rename : ns.rename old new = some (replaced, source, ns')) :
    (replaced.elim t t.removeLink).Tidy ∧ (ns.remove new).2.byName[old]? = some source ∧
      (ns.remove new).2.byName[new]? = none := by
  obtain ⟨known, different, rfl, -⟩ := Namespace.rename_eq_some rename
  have apart : new ≠ old := fun same => different (same ▸ known)
  refine ⟨?_, ?_, ?_⟩
  · cases ns.byName[new]? with
    | none => exact tidy
    | some id => exact removeLink_tidy tidy id
  · rw [Namespace.byName_remove, if_neg apart, known]
  · rw [Namespace.byName_remove, if_pos rfl]

/-- A name taken from its node, if it has one. -/
theorem displace (wired : Wired t ns) (tidy : t.Tidy) (d : Dentry) :
    Wired (ns.byName[d]?.elim t t.removeLink) (ns.remove d).2 := by
  cases known : ns.byName[d]? with
  | none =>
      rw [Namespace.remove_unknown known]
      exact wired
  | some id => exact wired.remove tidy known

/-- `rename` of names, with the links and the parent pointer that go with it. -/
theorem rename (wired : Wired t ns) (tidy : t.Tidy) {old new : Dentry} {replaced : Option NodeId}
    {source : NodeId} {ns' : Namespace} (rename : ns.rename old new = some (replaced, source, ns')) :
    Wired ((replaced.elim t t.removeLink).reparent source new.parent) ns' := by
  obtain ⟨tidy', known, -⟩ := rename_parts tidy rename
  obtain ⟨-, -, rfl, rfl⟩ := Namespace.rename_eq_some rename
  exact (wired.displace tidy new).move tidy' known

/-- One more name for a node, and one more link. -/
theorem addAlias (wired : Wired t ns) (live : t.map[id]? = some slot)
    (add : t.addLink id = (some (), t')) : Wired t' (ns.addAlias id d) := by
  have map := addLink_map live add
  constructor
  case toKeyed =>
      have keyed := (wired.toKeyed.addLink id).addAlias id d
      rwa [add] at keyed
  case named => exact wired.named.addAlias id d
  case enough =>
      intro k s live'
      have size : ((ns.addAlias id d).names k).size ≤ _ := Namespace.size_names_addAlias_le
      rw [map] at live'
      split at live'
      · rename_i same
        cases live'
        subst same
        have enough := wired.enough id slot live
        rw [if_pos rfl] at size
        show _ ≤ slot.links + 1
        omega
      · rename_i other
        have enough := wired.enough k s live'
        rw [if_neg other] at size
        omega
  case live =>
      intro d' k mem
      rw [map]
      split
      · exact ⟨_, rfl⟩
      · rename_i other
        rw [Namespace.names_addAlias, if_neg other] at mem
        exact wired.live d' k mem
  case root =>
      obtain ⟨s, live'⟩ := wired.root
      rw [map]
      split
      · exact ⟨_, rfl⟩
      · exact ⟨s, live'⟩

end Wired

end TypedFuse
