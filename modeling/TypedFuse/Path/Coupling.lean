import TypedFuse.Path.Wiring

/-!
# Names and nodes

`Coupled` ties the names of the path adapter to the node table of the runtime more tightly than
`Wired` does: each node has as many links as names (and the root one more), each name is among the
names of its node and of no other, and a node that has not been linked has at most one name, which
its parent pointer agrees with.  It holds as long as no link is made under a known name.
-/

namespace TypedFuse

open Std NodeTable

variable {P : PathTypes} {t t' : NodeTable (PathNode P)} {ns : Namespace} {linked : Nat → Prop}
  {d : Dentry} {id : NodeId} {slot : Slot (PathNode P)}

/-- The names `ns` and the node table `t` agree; `linked` tells the nodes that have been linked by
the addresses of their records. -/
structure Coupled (t : NodeTable (PathNode P)) (ns : Namespace) (linked : Nat → Prop) : Prop
    extends Wired t ns where
  coherent : ns.Coherent
  links : ∀ (id : NodeId) (slot : Slot (PathNode P)), t.map[id]? = some slot →
    slot.links = (ns.names id).size + if id = NodeId.root then 1 else 0
  single : ∀ (id : NodeId) (slot : Slot (PathNode P)), t.map[id]? = some slot →
    ¬linked slot.record.ptr → ∀ d ∈ ns.names id, slot.parent = d.parent ∧ ∀ d' ∈ ns.names id, d' = d

namespace Namespace

theorem Coherent.absent (coherent : ns.Coherent) (unknown : ns.byName[d]? = none) (id : NodeId) :
    d ∉ ns.names id := fun mem => by
  rw [← coherent.mem, unknown] at mem
  cases mem

end Namespace

namespace Coupled

theorem new (root : PathNode P) (key : root.key = 1) : Coupled (.withRoot root) .new linked where
  toWired := .new root key
  coherent := Namespace.new_coherent
  links id slot live := by
    rw [withRoot_map] at live
    split at live
    · rename_i same
      cases live
      simp [Namespace.names, Namespace.new, same.symm, freshSlot]
    · cases live
  single id slot _ _ d mem := by simp [Namespace.names, Namespace.new] at mem

theorem mono {linked' : Nat → Prop} (coupled : Coupled t ns linked)
    (more : ∀ ptr, linked ptr → linked' ptr) : Coupled t ns linked' :=
  { coupled with
    single := fun id slot live unlinked =>
      coupled.single id slot live fun was => unlinked (more _ was) }

theorem trims (coupled : Coupled t ns linked) (trims : t.Trims t') : Coupled t' ns linked where
  toWired := coupled.toWired.trims trims
  coherent := coupled.coherent
  links id slot' live' := by
    obtain ⟨slot, live, -, links, -, -⟩ := trims.same id slot' live'
    rw [links, coupled.links id slot live]
  single id slot' live' unlinked := by
    obtain ⟨slot, live, record, -, parent, -⟩ := trims.same id slot' live'
    rw [parent]
    exact coupled.single id slot live (record ▸ unlinked)

/-- A key used up by a panic. -/
theorem usedKey (coupled : Coupled t ns linked) :
    Coupled t { ns with nextKey := ns.nextKey + 1 } linked where
  toWired := coupled.toWired.usedKey
  coherent := ⟨coupled.coherent.mem, coupled.coherent.inhabited⟩
  links := coupled.links
  single := coupled.single

/-- A new node under an unknown name. -/
theorem insert (coupled : Coupled t ns linked) {given : List (Nat × Nat)} (num : t.Numbered given)
    (unknown : ns.byName[d]? = none) {state : P.NodeState}
    (insert : t.insert ⟨ns.nextKey, state⟩ d.parent = (some id, t')) :
    Coupled t' (ns.inserted d id (ns.nextKey + 1)) linked := by
  obtain ⟨dead, generation, map⟩ := num.insert_map insert
  obtain ⟨notRoot, names⟩ := coupled.toWired.insert_fresh (d := d) dead (ns.nextKey + 1)
  constructor
  case toWired => exact coupled.toWired.insert num insert
  case coherent => exact coupled.coherent.inserted unknown id _
  case links =>
      intro k slot live
      rw [map] at live
      rw [names]
      split at live
      · rename_i same
        cases live
        subst same
        simp [freshSlot, notRoot, ExtTreeSet.size_insert]
      · rename_i other
        rw [if_neg other]
        exact coupled.links k slot live
  case single =>
      intro k slot live unlinked d' mem
      rw [map] at live
      rw [names] at mem ⊢
      split at live
      · rename_i same
        cases live
        subst same
        rw [if_pos rfl] at mem ⊢
        have only : ∀ d', d' ∈ (∅ : ExtTreeSet Dentry).insert d → d' = d := fun d' mem => by
          simpa [eq_comm (a := d')] using mem
        cases only d' mem
        exact ⟨rfl, only⟩
      · rename_i other
        rw [if_neg other] at mem ⊢
        exact coupled.single k slot live unlinked d' mem

/-- A name taken from its node, and the link with it. -/
theorem remove (coupled : Coupled t ns linked) (tidy : t.Tidy) (known : ns.byName[d]? = some id) :
    Coupled (t.removeLink id) (ns.remove d).2 linked := by
  constructor
  case toWired => exact coupled.toWired.remove tidy known
  case coherent => exact coupled.coherent.remove d
  case links =>
      intro k s' live'
      obtain ⟨s, live, -, -, -, links⟩ := removeLink_old tidy live'
      have size : ((ns.remove d).2.names k).size + _ = _ :=
        Namespace.size_names_remove known (coupled.named d id known)
      have old := coupled.links k s live
      rw [links]
      omega
  case single =>
      intro k s' live' unlinked d' mem
      obtain ⟨s, live, record, parent, -⟩ := removeLink_old tidy live'
      rw [parent]
      obtain ⟨same, only⟩ := coupled.single k s live (record ▸ unlinked) d'
        (Namespace.names_remove_mem known mem)
      exact ⟨same, fun d'' mem' => only d'' (Namespace.names_remove_mem known mem')⟩

/-- A node that moves from one name to an unknown one. -/
theorem move (coupled : Coupled t ns linked) (tidy : t.Tidy) {old new : Dentry} {source : NodeId}
    (known : ns.byName[old]? = some source) (unknown : ns.byName[new]? = none) :
    Coupled (t.reparent source new.parent) ((ns.remove old).2.addAlias source new) linked := by
  have old_mem := coupled.named old source known
  obtain ⟨slot, live⟩ := coupled.live old source old_mem
  have map := reparent_map tidy live new.parent
  have unknown' : (ns.remove old).2.byName[new]? = none := by
    rw [Namespace.byName_remove, unknown]
    exact ite_self _
  have coherent' := coupled.coherent.remove old
  have size : ∀ k, (((ns.remove old).2.addAlias source new).names k).size =
      (ns.names k).size := by
    intro k
    rw [Namespace.size_names_addAlias (coherent'.absent unknown' source)]
    exact Namespace.size_names_remove known old_mem
  constructor
  case toWired => exact coupled.toWired.move tidy known
  case coherent => exact coherent'.addAlias unknown' source
  case links =>
      intro k s live'
      rw [size]
      rw [map] at live'
      split at live'
      · rename_i same
        cases live'
        exact same ▸ coupled.links source slot live
      · exact coupled.links k s live'
  case single =>
      intro k s live' unlinked d' mem
      rw [map] at live'
      rw [Namespace.names_addAlias] at mem ⊢
      split at live'
      · rename_i same
        cases live'
        subst same
        -- Its only name was the old one.
        obtain ⟨-, only⟩ := coupled.single source slot live unlinked old old_mem
        have all : ∀ d', d' ∈ ((ns.remove old).2.names source).insert new → d' = new := by
          intro d' mem
          rw [Namespace.names_remove known, if_pos rfl] at mem
          rcases ExtTreeSet.mem_insert.mp mem with new' | kept
          · exact (LawfulEqCmp.compare_eq_iff_eq.mp new').symm
          · have old' := only d' (ExtTreeSet.mem_of_mem_erase kept)
            rw [old'] at kept
            simp at kept
        rw [if_pos rfl] at mem ⊢
        cases all d' mem
        exact ⟨rfl, all⟩
      · rename_i other
        rw [if_neg other, Namespace.names_remove known, if_neg other] at mem ⊢
        exact coupled.single k s live' unlinked d' mem

/-- `rename` of names, with the links and the parent pointer that go with it. -/
theorem rename (coupled : Coupled t ns linked) (tidy : t.Tidy) {old new : Dentry}
    {replaced : Option NodeId} {source : NodeId} {ns' : Namespace}
    (rename : ns.rename old new = some (replaced, source, ns')) :
    Coupled ((replaced.elim t t.removeLink).reparent source new.parent) ns' linked := by
  obtain ⟨tidy', known, unknown⟩ := Wired.rename_parts tidy rename
  obtain ⟨-, -, rfl, rfl⟩ := Namespace.rename_eq_some rename
  refine move ?_ tidy' known unknown
  cases known' : ns.byName[new]? with
  | none =>
      rw [Namespace.remove_unknown known']
      exact coupled
  | some id => exact coupled.remove tidy known'

/-- One more name for a node, and one more link. -/
theorem addAlias (coupled : Coupled t ns linked) (unknown : ns.byName[d]? = none)
    (live : t.map[id]? = some slot) (operand : linked slot.record.ptr)
    (add : t.addLink id = (some (), t')) : Coupled t' (ns.addAlias id d) linked := by
  have map := addLink_map live add
  constructor
  case toWired => exact coupled.toWired.addAlias live add
  case coherent => exact coupled.coherent.addAlias unknown id
  case links =>
      intro k s live'
      rw [Namespace.size_names_addAlias (coupled.coherent.absent unknown id)]
      rw [map] at live'
      split at live'
      · rename_i same
        cases live'
        subst same
        have := coupled.links id slot live
        simp only [↓reduceIte]
        omega
      · rename_i other
        rw [if_neg other]
        exact coupled.links k s live'
  case single =>
      intro k s live' unlinked d' mem
      rw [map] at live'
      rw [Namespace.names_addAlias] at mem ⊢
      split at live'
      · cases live'
        exact absurd operand unlinked
      · rename_i other
        rw [if_neg other] at mem ⊢
        exact coupled.single k s live' unlinked d' mem

end Coupled

end TypedFuse
