import Mathlib.Algebra.Order.Group.Multiset
import TypedFuse.Runtime.NodeTable

/-!
# Node identity and retention

What the node table keeps while its critical sections run in any order.

* `NodeTable.Held`: the counts of a slot are the leases and open handles in circulation, no slot
  is left that nothing holds, and a lease finds its own record.
* `NodeTable.Numbered`: the free list holds dead inode numbers, each once, and every number is
  given with the generations 0, 1, 2, ... in turn (`Ordered`).

Both are kept by rewriting one slot (`Held.settle`, `Numbered.settle`) and by `insert`, and every
section of the table is one of these two.  `TableRun` puts the sections into runs with the leases
and open handles they leave behind.
-/

namespace TypedFuse

open Std

variable {N : Type}

namespace NodeTable

/-! ## Retention -/

/-- The leases on one inode. -/
def leasesAt (refs : Multiset Lease) (ino : Nat) : Nat := refs.countP fun r => r.id = ino

@[simp] theorem leasesAt_zero (ino : Nat) : leasesAt 0 ino = 0 := rfl

@[simp] theorem leasesAt_cons (r : Lease) (refs : Multiset Lease) (ino : Nat) :
    leasesAt (r ::ₘ refs) ino = leasesAt refs ino + if r.id = ino then 1 else 0 :=
  Multiset.countP_cons _ r refs

@[simp] theorem leasesAt_add (refs refs' : Multiset Lease) (ino : Nat) :
    leasesAt (refs + refs') ino = leasesAt refs ino + leasesAt refs' ino :=
  Multiset.countP_add _ refs refs'

theorem leasesAt_pos {refs : Multiset Lease} {r : Lease} (mem : r ∈ refs) :
    0 < leasesAt refs r.id :=
  Multiset.countP_pos_of_mem mem rfl

/-- The counts of the table are the leases and the open handles in circulation. -/
structure Held (t : NodeTable N) (refs : Multiset Lease) (opened : Multiset NodeId) : Prop where
  tidy : t.Tidy
  leases : ∀ (ino : Nat) (slot : Slot N), t.map[ino]? = some slot →
    slot.leases = leasesAt refs ino
  refs : ∀ r ∈ refs, ∃ slot : Slot N, t.map[r.id]? = some slot ∧ slot.record.ptr = r.ptr
  opens : ∀ (ino : Nat) (slot : Slot N), t.map[ino]? = some slot →
    slot.opens = opened.count ino
  opened : ∀ ino ∈ opened, ∃ slot : Slot N, t.map[ino]? = some slot

variable {t t' : NodeTable N} {refs refs' : Multiset Lease} {opened opened' : Multiset NodeId}
  {ino : Nat} {slot slot' : Slot N}

/-- Rewriting one slot keeps the counts if the leases and handles in circulation change with it. -/
theorem Held.settle (held : t.Held refs opened) (live : t.map[ino]? = some slot)
    (record : slot'.record = slot.record)
    (leases : slot'.leases = leasesAt refs' ino)
    (opens : slot'.opens = opened'.count ino)
    (otherRefs : ∀ k, k ≠ ino → leasesAt refs' k = leasesAt refs k)
    (ownRefs : ∀ r ∈ refs', r ∈ refs ∨ r = ⟨ino, slot.record.ptr⟩)
    (otherOpens : ∀ k, k ≠ ino → opened'.count k = opened.count k) :
    (t.settle ino slot').Held refs' opened' where
  tidy := held.tidy.settle
  leases k s hs := by
    rw [settle_map] at hs
    split at hs
    · rename_i same
      subst same
      split at hs
      · cases hs
      · cases hs
        exact leases
    · rename_i other
      rw [otherRefs k (Ne.symm other)]
      exact held.leases k s hs
  refs r mem := by
    have slotOf : ∃ s : Slot N, t.map[r.id]? = some s ∧ s.record.ptr = r.ptr := by
      rcases ownRefs r mem with old | rfl
      · exact held.refs r old
      · exact ⟨slot, live, rfl⟩
    obtain ⟨s, hs, ptr⟩ := slotOf
    by_cases same : ino = r.id
    · have keep : slot'.droppable = false := by
        refine Slot.held_iff.mpr (.inr (.inr (.inr ?_)))
        rw [leases, same]
        exact (leasesAt_pos mem).ne'
      refine ⟨slot', by rw [settle_map, if_pos same, keep]; rfl, ?_⟩
      rw [← same, live] at hs
      cases hs
      rw [record, ptr]
    · exact ⟨s, by rw [settle_map, if_neg same, hs], ptr⟩
  opens k s hs := by
    rw [settle_map] at hs
    split at hs
    · rename_i same
      subst same
      split at hs
      · cases hs
      · cases hs
        exact opens
    · rename_i other
      rw [otherOpens k (Ne.symm other)]
      exact held.opens k s hs
  opened k mem := by
    by_cases same : ino = k
    · subst same
      have keep : slot'.droppable = false := by
        refine Slot.held_iff.mpr (.inr (.inr (.inl ?_)))
        rw [opens]
        exact (Multiset.count_pos.mpr mem).ne'
      exact ⟨slot', by rw [settle_map, if_pos rfl, keep]; rfl⟩
    · have old : k ∈ opened := by
        rw [← Multiset.count_pos, ← otherOpens k (Ne.symm same)]
        exact Multiset.count_pos.mpr mem
      obtain ⟨s, hs⟩ := held.opened k old
      exact ⟨s, by rw [settle_map, if_neg same, hs]⟩

/-- Rewriting a slot's links, lookups or parent changes nothing in circulation. -/
theorem Held.rewrite (held : t.Held refs opened) (live : t.map[ino]? = some slot)
    (record : slot'.record = slot.record) (leases : slot'.leases = slot.leases)
    (opens : slot'.opens = slot.opens) : (t.settle ino slot').Held refs opened :=
  held.settle live record (leases.trans (held.leases ino slot live))
    (opens.trans (held.opens ino slot live)) (fun _ _ => rfl) (fun _ mem => .inl mem)
    (fun _ _ => rfl)

theorem Held.addLease (held : t.Held refs opened) (live : t.map[ino]? = some slot)
    (record : slot'.record = slot.record) (leases : slot'.leases = slot.leases + 1)
    (opens : slot'.opens = slot.opens) :
    (t.settle ino slot').Held (⟨ino, slot.record.ptr⟩ ::ₘ refs) opened := by
  refine held.settle live record ?_ (opens.trans (held.opens ino slot live)) ?_ ?_
    (fun _ _ => rfl)
  · rw [leases, held.leases ino slot live, leasesAt_cons, if_pos rfl]
  · intro k other
    rw [leasesAt_cons, if_neg other.symm, Nat.add_zero]
  · intro r mem
    rcases Multiset.mem_cons.mp mem with rfl | old
    · exact .inr rfl
    · exact .inl old

theorem Held.dropLease {r : Lease} (held : t.Held (r ::ₘ refs) opened) :
    (t.dropRef r).Held refs opened := by
  obtain ⟨slot, live, ptr⟩ := held.refs r (Multiset.mem_cons_self r refs)
  have count := held.leases r.id slot live
  rw [leasesAt_cons, if_pos rfl] at count
  rw [dropRef_eq live ptr]
  refine held.settle live rfl ?_ (held.opens r.id slot live) ?_ ?_ (fun _ _ => rfl)
  · show slot.leases - 1 = _
    omega
  · intro k other
    rw [leasesAt_cons, if_neg other.symm, Nat.add_zero]
  · intro r' mem
    exact .inl (Multiset.mem_cons_of_mem mem)

theorem Held.addOpen (held : t.Held refs opened) (live : t.map[ino]? = some slot) :
    (t.settle ino { slot with opens := slot.opens + 1 }).Held refs (ino ::ₘ opened) := by
  refine held.settle live rfl (held.leases ino slot live) ?_ (fun _ _ => rfl)
    (fun _ mem => .inl mem) ?_
  · show slot.opens + 1 = _
    rw [Multiset.count_cons_self, held.opens ino slot live]
  · intro k other
    exact Multiset.count_cons_of_ne other opened

theorem Held.removeOpen (held : t.Held refs (ino ::ₘ opened)) :
    (t.removeOpen ino).Held refs opened := by
  obtain ⟨slot, live⟩ := held.opened ino (Multiset.mem_cons_self ino opened)
  have count := held.opens ino slot live
  rw [Multiset.count_cons_self] at count
  rcases removeOpen_cases held.tidy ino with ⟨dead, -⟩ | ⟨slot', live', eq⟩
  · rw [dead] at live
    cases live
  · rw [live] at live'
    cases live'
    rw [eq]
    refine held.settle live rfl (held.leases ino slot live) ?_ (fun _ _ => rfl)
      (fun _ mem => .inl mem) ?_
    · show slot.opens - 1 = _
      omega
    · intro k other
      exact (Multiset.count_cons_of_ne other opened).symm

/-! ## Numbers and generations -/

/-- Each inode number is given with the generations 0, 1, 2, ... in turn (newest pair first). -/
def Ordered : List (Nat × Nat) → Prop
  | [] => True
  | (ino, generation) :: given =>
    generation = (given.countP fun p => p.1 = ino) % 2 ^ 64 ∧ Ordered given

theorem Ordered.mem {given : List (Nat × Nat)} {ino generation : Nat} (ordered : Ordered given)
    (mem : (ino, generation) ∈ given) :
    ∃ c < given.countP fun p => p.1 = ino, generation = c % 2 ^ 64 := by
  induction given with
  | nil => cases mem
  | cons p given ih =>
      obtain ⟨ino', generation'⟩ := p
      obtain ⟨gen, ordered⟩ := ordered
      rcases List.mem_cons.mp mem with eq | old
      · cases eq
        refine ⟨_, ?_, gen⟩
        rw [List.countP_cons_of_pos (by simp)]
        exact Nat.lt_succ_self _
      · obtain ⟨c, lt, eq⟩ := ih ordered old
        refine ⟨c, ?_, eq⟩
        rw [List.countP_cons]
        omega

/-- Until `2 ^ 64` pairs have been given, no generation has come round again. -/
theorem Ordered.nodup {given : List (Nat × Nat)} (ordered : Ordered given)
    (few : given.length ≤ 2 ^ 64) : given.Nodup := by
  induction given with
  | nil => exact List.nodup_nil
  | cons p given ih =>
      obtain ⟨ino, generation⟩ := p
      obtain ⟨gen, ordered⟩ := ordered
      rw [List.length_cons] at few
      refine List.nodup_cons.mpr ⟨fun mem => ?_, ih ordered (by omega)⟩
      obtain ⟨c, lt, eq⟩ := ordered.mem mem
      have bound : (given.countP fun p => p.1 = ino) ≤ given.length := List.countP_le_length
      rw [gen, Nat.mod_eq_of_lt (by omega), Nat.mod_eq_of_lt (by omega)] at eq
      omega

/-- The free list and the pairs given so far agree with the slots. -/
structure Numbered (t : NodeTable N) (given : List (Nat × Nat)) : Prop where
  live_lt : ∀ (ino : Nat) (slot : Slot N), t.map[ino]? = some slot → ino < t.nextIno
  free_lt : ∀ p ∈ t.free, p.1 < t.nextIno
  free_dead : ∀ p ∈ t.free, t.map[p.1]? = none
  free_nodup : (t.free.map Prod.fst).Nodup
  given_lt : ∀ p ∈ given, p.1 < t.nextIno
  ordered : Ordered given
  live_gen : ∀ (ino : Nat) (slot : Slot N), t.map[ino]? = some slot →
    ∃ c, (given.countP fun p => p.1 = ino) = c + 1 ∧ slot.generation = c % 2 ^ 64
  free_gen : ∀ p ∈ t.free, p.2 = (given.countP fun q => q.1 = p.1) % 2 ^ 64

variable {given : List (Nat × Nat)}

theorem Numbered.settle (num : t.Numbered given) (live : t.map[ino]? = some slot)
    (generation : slot'.generation = slot.generation) : (t.settle ino slot').Numbered given := by
  obtain ⟨c, count, gen⟩ := num.live_gen ino slot live
  have notFree : ∀ p ∈ t.free, p.1 ≠ ino := fun p mem same => by
    have := num.free_dead p mem
    rw [same, live] at this
    cases this
  have liveOf : ∀ (k : Nat) (s : Slot N), (t.settle ino slot').map[k]? = some s →
      (k = ino ∧ s = slot') ∨ t.map[k]? = some s := fun k s hs => by
    rw [settle_map] at hs
    split at hs
    · split at hs
      · cases hs
      · cases hs
        exact .inl ⟨Eq.symm ‹_›, rfl⟩
    · exact .inr hs
  have deadOf : ∀ k, t.map[k]? = none → (t.settle ino slot').map[k]? = none := fun k dead => by
    rw [settle_map, if_neg (fun same => by rw [same, dead] at live; cases live), dead]
  constructor
  case live_lt =>
      intro k s hs
      rw [settle_nextIno]
      rcases liveOf k s hs with ⟨rfl, -⟩ | old
      · exact num.live_lt _ slot live
      · exact num.live_lt k s old
  case free_lt =>
      intro p mem
      rw [settle_nextIno]
      rw [settle_free] at mem
      split at mem
      · rcases List.mem_cons.mp mem with rfl | old
        · exact num.live_lt ino slot live
        · exact num.free_lt p old
      · exact num.free_lt p mem
  case free_dead =>
      intro p mem
      rw [settle_free] at mem
      split at mem
      · rename_i drop
        rcases List.mem_cons.mp mem with rfl | old
        · rw [settle_map, if_pos rfl, if_pos drop]
        · exact deadOf _ (num.free_dead p old)
      · exact deadOf _ (num.free_dead p mem)
  case free_nodup =>
      rw [settle_free]
      split
      · rw [List.map_cons]
        refine List.nodup_cons.mpr ⟨fun mem => ?_, num.free_nodup⟩
        obtain ⟨p, mem, same⟩ := List.mem_map.mp mem
        exact notFree p mem same
      · exact num.free_nodup
  case given_lt =>
      intro p mem
      rw [settle_nextIno]
      exact num.given_lt p mem
  case ordered => exact num.ordered
  case live_gen =>
      intro k s hs
      rcases liveOf k s hs with ⟨rfl, rfl⟩ | old
      · exact ⟨c, count, generation.trans gen⟩
      · exact num.live_gen k s old
  case free_gen =>
      intro p mem
      rw [settle_free] at mem
      split at mem
      · rcases List.mem_cons.mp mem with rfl | old
        · show (slot'.generation + 1) % 2 ^ 64 = _
          rw [generation, gen, count, Nat.mod_add_mod]
        · exact num.free_gen p old
      · exact num.free_gen p mem

/-! ## Insertion -/

/-- What `alloc` hands out is dead and comes with the next generation of its number. -/
theorem Numbered.alloc (num : t.Numbered given) {generation : Nat}
    (alloc : t.alloc = some ((ino, generation), t')) :
    t.map[ino]? = none ∧ t'.map = t.map ∧ t'.nextPtr = t.nextPtr ∧
      generation = (given.countP fun p => p.1 = ino) % 2 ^ 64 ∧ ino < t'.nextIno ∧
      t.nextIno ≤ t'.nextIno ∧ (∀ p ∈ t'.free, p ∈ t.free ∧ p.1 ≠ ino) ∧
      (t'.free.map Prod.fst).Nodup := by
  rcases alloc_cases t with none | ⟨pair, rest, free, eq⟩ | ⟨free, eq⟩
  · rw [none] at alloc
    cases alloc
  · rw [eq] at alloc
    cases alloc
    have mem : (ino, generation) ∈ t.free := free ▸ List.mem_cons_self
    have nodup := num.free_nodup
    rw [free, List.map_cons, List.nodup_cons] at nodup
    refine ⟨num.free_dead _ mem, rfl, rfl, num.free_gen _ mem, num.free_lt _ mem, le_rfl, ?_,
      nodup.2⟩
    intro p old
    refine ⟨free ▸ List.mem_cons_of_mem _ old, fun same => nodup.1 ?_⟩
    exact List.mem_map.mpr ⟨p, old, same⟩
  · rw [eq] at alloc
    cases alloc
    have fresh : (given.countP fun p => p.1 = t.nextIno) = 0 := by
      refine List.countP_eq_zero.mpr fun p mem same => ?_
      exact (num.given_lt p mem).ne (by simpa using same)
    refine ⟨?_, rfl, rfl, by rw [fresh]; rfl, Nat.lt_succ_self _, Nat.le_succ _, ?_, ?_⟩
    · cases live : t.map[t.nextIno]? with
      | none => rfl
      | some slot => exact absurd (num.live_lt _ slot live) (lt_irrefl _)
    · intro p mem
      rw [free] at mem
      cases mem
    · rw [free]
      exact List.nodup_nil

/-- `insert` puts a fresh slot where there was none. -/
theorem Numbered.insert_map (num : t.Numbered given) {payload : N} {parent id : NodeId}
    (insert : t.insert payload parent = (some id, t')) :
    t.map[id]? = none ∧ ∃ generation, ∀ k, t'.map[k]? =
      if id = k then some (freshSlot t.nextPtr generation payload parent) else t.map[k]? := by
  obtain ⟨generation, t₁, alloc, rfl⟩ := insert_eq_some insert
  obtain ⟨dead, map, ptr, -⟩ := num.alloc alloc
  refine ⟨dead, generation, fun k => ?_⟩
  simp only [ExtTreeMap.getElem?_insert, LawfulEqCmp.compare_eq_iff_eq, map, ptr]

theorem Held.insert (held : t.Held refs opened) (num : t.Numbered given) {payload : N}
    {parent id : NodeId} (insert : t.insert payload parent = (some id, t')) :
    t'.Held refs opened := by
  obtain ⟨dead, generation, map⟩ := num.insert_map insert
  have alive : ∀ (k : Nat) (s : Slot N), t.map[k]? = some s → t'.map[k]? = some s := by
    intro k s live
    rw [map, if_neg (fun same => by rw [same, live] at dead; cases dead), live]
  have noRefs : leasesAt refs id = 0 := by
    refine Multiset.countP_eq_zero.mpr fun r mem same => ?_
    obtain ⟨s, live, -⟩ := held.refs r mem
    rw [same, dead] at live
    cases live
  have noOpens : opened.count id = 0 := by
    refine Multiset.count_eq_zero.mpr fun mem => ?_
    obtain ⟨s, live⟩ := held.opened id mem
    rw [dead] at live
    cases live
  constructor
  case tidy =>
      intro k s live
      rw [map] at live
      split at live
      · cases live
        rfl
      · exact held.tidy k s live
  case leases =>
      intro k s live
      rw [map] at live
      split at live
      · rename_i same
        cases live
        rw [← same, noRefs]
        rfl
      · exact held.leases k s live
  case refs =>
      intro r mem
      obtain ⟨s, live, ptr⟩ := held.refs r mem
      exact ⟨s, alive _ s live, ptr⟩
  case opens =>
      intro k s live
      rw [map] at live
      split at live
      · rename_i same
        cases live
        rw [← same, noOpens]
        rfl
      · exact held.opens k s live
  case opened =>
      intro k mem
      obtain ⟨s, live⟩ := held.opened k mem
      exact ⟨s, alive k s live⟩

theorem Numbered.insert (num : t.Numbered given) {payload : N} {parent id : NodeId}
    {generation : Nat} (insert : t.insert payload parent = (some id, t'))
    (gen : t'.generationOf id = some generation) : t'.Numbered ((id, generation) :: given) := by
  obtain ⟨dead, generation', map⟩ := num.insert_map insert
  obtain ⟨generation'', t₁, alloc, rfl⟩ := insert_eq_some insert
  obtain ⟨-, -, -, next, lt, le, rest, nodup⟩ := num.alloc alloc
  have own := map id
  simp only [ExtTreeMap.getElem?_insert_self, ↓reduceIte, Option.some.injEq] at own
  have same : generation'' = generation' := congrArg Slot.generation own
  simp only [generationOf, ExtTreeMap.getElem?_insert_self, Option.map_some,
    Option.some.injEq] at gen
  have gen : generation'' = generation := gen
  subst same
  subst gen
  constructor
  case live_lt =>
      intro k s live
      rw [map] at live
      split at live
      · rename_i same
        rw [← same]
        exact lt
      · exact (num.live_lt k s live).trans_le le
  case free_lt =>
      intro p mem
      exact (num.free_lt p (rest p mem).1).trans_le le
  case free_dead =>
      intro p mem
      obtain ⟨old, other⟩ := rest p mem
      rw [map, if_neg other.symm]
      exact num.free_dead p old
  case free_nodup => exact nodup
  case given_lt =>
      intro p mem
      rcases List.mem_cons.mp mem with rfl | old
      · exact lt
      · exact (num.given_lt p old).trans_le le
  case ordered => exact ⟨next, num.ordered⟩
  case live_gen =>
      intro k s live
      rw [map] at live
      split at live
      · rename_i same
        cases live
        subst same
        exact ⟨_, List.countP_cons_of_pos (by simp), next⟩
      · rename_i other
        obtain ⟨c, count, eq⟩ := num.live_gen k s live
        exact ⟨c, by rw [List.countP_cons_of_neg (by simpa using other), count], eq⟩
  case free_gen =>
      intro p mem
      obtain ⟨old, other⟩ := rest p mem
      rw [List.countP_cons_of_neg (by simpa using other.symm)]
      exact num.free_gen p old

/-! ## The table `Runtime::new` starts from -/

theorem withRoot_map (root : N) (k : Nat) : (withRoot root).map[k]? =
    if NodeId.root = k then some (freshSlot 0 0 root NodeId.root) else none := by
  simp [withRoot, ExtTreeMap.getElem?_insert]

theorem withRoot_held (root : N) : (withRoot root).Held 0 0 := by
  constructor
  case tidy =>
      intro k s live
      rw [withRoot_map] at live
      split at live
      · cases live
        rfl
      · cases live
  case leases =>
      intro k s live
      rw [withRoot_map] at live
      split at live
      · cases live
        rfl
      · cases live
  case refs => exact fun r mem => absurd mem (Multiset.notMem_zero r)
  case opens =>
      intro k s live
      rw [withRoot_map] at live
      split at live
      · cases live
        rfl
      · cases live
  case opened => exact fun k mem => absurd mem (Multiset.notMem_zero k)

theorem withRoot_numbered (root : N) : (withRoot root).Numbered [(NodeId.root, 0)] := by
  have live_root : ∀ (k : Nat) (s : Slot N), (withRoot root).map[k]? = some s →
      k = NodeId.root ∧ s.generation = 0 := by
    intro k s live
    rw [withRoot_map] at live
    split at live
    · cases live
      exact ⟨Eq.symm ‹_›, rfl⟩
    · cases live
  constructor
  case live_lt =>
      intro k s live
      rw [(live_root k s live).1]
      exact Nat.lt_succ_self 1
  case free_lt => exact fun p mem => absurd mem List.not_mem_nil
  case free_dead => exact fun p mem => absurd mem List.not_mem_nil
  case free_nodup => exact List.nodup_nil
  case given_lt =>
      intro p mem
      rw [List.mem_singleton.mp mem]
      exact Nat.lt_succ_self 1
  case ordered => exact ⟨rfl, trivial⟩
  case live_gen =>
      intro k s live
      obtain ⟨rfl, gen⟩ := live_root k s live
      exact ⟨0, rfl, gen⟩
  case free_gen => exact fun p mem => absurd mem List.not_mem_nil

end NodeTable

/-! ## Runs of critical sections -/

open NodeTable

/-- One critical section of the node table. -/
inductive TableOp (N : Type)
  | insert (payload : N) (parent : NodeId)
  | get (id : NodeId)
  | reparent (id newParent : NodeId)
  | addLink (id : NodeId)
  | removeLink (id : NodeId)
  | dropRef (r : Lease)
  | retainLookup (id : NodeId)
  | beginForget (ino nlookup : Nat)
  | maybeDrop (id : NodeId)
  | addOpen (ino : Nat)
  | removeOpen (ino : Nat)

/-- The lease a section took, if any. -/
def taken (r : Option (NodeRef N)) : Multiset Lease := r.elim 0 fun ref => {ref.lease}

@[simp] theorem taken_none : taken (none : Option (NodeRef N)) = 0 := rfl

@[simp] theorem taken_some (ref : NodeRef N) : taken (some ref) = {ref.lease} := rfl

/-- A table, the leases and open handles in circulation, and the pairs given so far (newest
first). -/
structure TableRun (N : Type) where
  table : NodeTable N
  refs : Multiset Lease
  opened : Multiset NodeId
  given : List (Nat × Nat)

namespace TableRun

/-- `Runtime::new`, which gives the root its number and generation. -/
def new (root : N) : TableRun N := ⟨withRoot root, 0, 0, [(NodeId.root, 0)]⟩

/-- A lease can be dropped only where there is one, and a close matches an open. -/
def Allowed (s : TableRun N) : TableOp N → Prop
  | .dropRef r => r ∈ s.refs
  | .removeOpen ino => ino ∈ s.opened
  | _ => True

/-- The pair a new slot was given. -/
def pairOf (t : NodeTable N) (id : NodeId) : Option (Nat × Nat) :=
  (t.generationOf id).map fun generation => (id, generation)

def apply (s : TableRun N) : TableOp N → TableRun N
  | .insert payload parent =>
    let (id, table) := s.table.insert payload parent
    { s with table, given := (id.bind (pairOf table)).toList ++ s.given }
  | .get id =>
    let (r, table) := s.table.get id
    { s with table, refs := taken r.join + s.refs }
  | .reparent id newParent => { s with table := s.table.reparent id newParent }
  | .addLink id => { s with table := (s.table.addLink id).2 }
  | .removeLink id => { s with table := s.table.removeLink id }
  | .dropRef r => { s with table := s.table.dropRef r, refs := s.refs.erase r }
  | .retainLookup id => { s with table := (s.table.retainLookup id).2 }
  | .beginForget ino nlookup =>
    let (r, table) := s.table.beginForget ino nlookup
    { s with table, refs := taken r.join.join + s.refs }
  | .maybeDrop id => { s with table := s.table.maybeDrop id }
  | .addOpen ino =>
    let (done, table) := s.table.addOpen ino
    { s with table, opened := if done = some true then ino ::ₘ s.opened else s.opened }
  | .removeOpen ino =>
    { s with table := s.table.removeOpen ino, opened := s.opened.erase ino }

/-- The runs from `Runtime::new`. -/
inductive Reachable (root : N) : TableRun N → Prop
  | new : Reachable root (new root)
  | apply {s : TableRun N} (op : TableOp N) :
    Reachable root s → s.Allowed op → Reachable root (s.apply op)

/-- What every run keeps. -/
structure Sound (s : TableRun N) : Prop where
  held : s.table.Held s.refs s.opened
  numbered : s.table.Numbered s.given

theorem Sound.rewrite {s : TableRun N} {ino : Nat} {slot slot' : Slot N} (sound : s.Sound)
    (live : s.table.map[ino]? = some slot) (record : slot'.record = slot.record)
    (leases : slot'.leases = slot.leases) (opens : slot'.opens = slot.opens)
    (generation : slot'.generation = slot.generation) :
    Sound { s with table := s.table.settle ino slot' } :=
  ⟨sound.held.rewrite live record leases opens, sound.numbered.settle live generation⟩

theorem Sound.apply {s : TableRun N} (sound : s.Sound) (op : TableOp N) (allowed : s.Allowed op) :
    (s.apply op).Sound := by
  have tidy := sound.held.tidy
  cases op with
  | insert payload parent =>
      cases eq : s.table.insert payload parent with
      | mk id t' =>
          cases id with
          | none =>
              have same : t' = s.table := by
                unfold NodeTable.insert at eq
                split at eq
                · cases eq
                · exact (Prod.mk.inj eq).2.symm
              subst same
              simpa [TableRun.apply, eq] using sound
          | some id =>
              obtain ⟨-, generation, map⟩ := sound.numbered.insert_map eq
              have gen : t'.generationOf id = some generation := by
                simp [generationOf, map, freshSlot]
              simp only [TableRun.apply, eq, Option.bind_some, pairOf, gen, Option.map_some]
              exact ⟨sound.held.insert sound.numbered eq, sound.numbered.insert eq gen⟩
  | get id =>
      rcases get_cases s.table id with ⟨-, eq⟩ | eq | ⟨slot, live, eq⟩
      · simpa [TableRun.apply, eq] using sound
      · simpa [TableRun.apply, eq] using sound
      · simp only [TableRun.apply, eq]
        exact ⟨sound.held.addLease live rfl rfl rfl, sound.numbered.settle live rfl⟩
  | reparent id newParent =>
      rcases reparent_cases tidy id newParent with ⟨-, eq⟩ | ⟨slot, live, eq⟩
      · simpa only [TableRun.apply, eq] using sound
      · simp only [TableRun.apply, eq]
        exact sound.rewrite live rfl rfl rfl rfl
  | addLink id =>
      rcases addLink_cases s.table id with ⟨-, eq⟩ | eq | ⟨slot, live, eq⟩
      · simpa only [TableRun.apply, eq] using sound
      · simpa only [TableRun.apply, eq] using sound
      · simp only [TableRun.apply, eq]
        exact sound.rewrite live rfl rfl rfl rfl
  | removeLink id =>
      rcases removeLink_cases tidy id with ⟨-, eq⟩ | ⟨slot, live, eq⟩
      · simpa only [TableRun.apply, eq] using sound
      · simp only [TableRun.apply, eq]
        exact sound.rewrite live rfl rfl rfl rfl
  | dropRef r =>
      obtain ⟨refs, eq⟩ := Multiset.exists_cons_of_mem (show r ∈ s.refs from allowed)
      have held := sound.held
      rw [eq] at held
      simp only [TableRun.apply, eq, Multiset.erase_cons_head]
      refine ⟨held.dropLease, ?_⟩
      rcases dropRef_cases tidy r with same | ⟨slot, live, -, same⟩
      · simpa only [same] using sound.numbered
      · simp only [same]
        exact sound.numbered.settle live rfl
  | retainLookup id =>
      rcases retainLookup_cases s.table id with ⟨-, eq⟩ | eq | ⟨slot, live, eq⟩
      · simpa only [TableRun.apply, eq] using sound
      · simpa only [TableRun.apply, eq] using sound
      · simp only [TableRun.apply, eq]
        exact sound.rewrite live rfl rfl rfl rfl
  | beginForget ino nlookup =>
      rcases beginForget_cases tidy ino nlookup with
        ⟨-, eq⟩ | ⟨slot, live, ⟨-, -, eq⟩ | eq | ⟨-, eq⟩⟩
      · simpa [TableRun.apply, eq] using sound
      · simp only [TableRun.apply, eq]
        exact ⟨sound.held.addLease live rfl rfl rfl, sound.numbered.settle live rfl⟩
      · simp only [TableRun.apply, eq, Option.join_none, taken_none, zero_add]
        exact sound.rewrite live rfl rfl rfl rfl
      · simp only [TableRun.apply, eq, Option.join_some, taken_none, zero_add]
        exact sound.rewrite live rfl rfl rfl rfl
  | maybeDrop id => simpa only [TableRun.apply, maybeDrop_of_tidy tidy] using sound
  | addOpen ino =>
      rcases addOpen_cases s.table ino with ⟨-, eq⟩ | eq | ⟨slot, live, eq⟩
      · simpa [TableRun.apply, eq] using sound
      · simpa [TableRun.apply, eq] using sound
      · simp only [TableRun.apply, eq, ↓reduceIte]
        exact ⟨sound.held.addOpen live, sound.numbered.settle live rfl⟩
  | removeOpen ino =>
      obtain ⟨opened, eq⟩ := Multiset.exists_cons_of_mem (show ino ∈ s.opened from allowed)
      have held := sound.held
      rw [eq] at held
      simp only [TableRun.apply, eq, Multiset.erase_cons_head]
      refine ⟨held.removeOpen, ?_⟩
      rcases removeOpen_cases tidy ino with ⟨-, same⟩ | ⟨slot, live, same⟩
      · simpa only [same] using sound.numbered
      · simp only [same]
        exact sound.numbered.settle live rfl

theorem Reachable.sound {root : N} {s : TableRun N} (run : Reachable root s) : s.Sound := by
  induction run with
  | new => exact ⟨withRoot_held root, withRoot_numbered root⟩
  | apply op _ allowed ih => exact ih.apply op allowed

/-- An identity is never reissued: the root and fewer than `2 ^ 64` insertions have pairwise
distinct pairs, `insert` takes dead numbers only, and a lease or an open handle still finds its
slot with a count to give back. -/
theorem identity_never_reissued {root : N} {s : TableRun N} (run : Reachable root s)
    (few : s.given.length ≤ 2 ^ 64) :
    (∀ payload parent id t', s.table.insert payload parent = (some id, t') →
      s.table.map[id]? = none) ∧
    (∀ p ∈ s.table.free, s.table.map[p.1]? = none ∧ p.1 < s.table.nextIno) ∧
    (s.table.free.map Prod.fst).Nodup ∧
    s.given.Nodup ∧
    (∀ r ∈ s.refs, ∃ slot : Slot N, s.table.map[r.id]? = some slot ∧
      slot.record.ptr = r.ptr ∧ 0 < slot.leases) ∧
    (∀ ino ∈ s.opened, ∃ slot : Slot N, s.table.map[ino]? = some slot ∧ 0 < slot.opens) := by
  obtain ⟨held, num⟩ := run.sound
  refine ⟨fun payload parent id t' insert => (num.insert_map insert).1,
    fun p mem => ⟨num.free_dead p mem, num.free_lt p mem⟩, num.free_nodup, num.ordered.nodup few,
    fun r mem => ?_, fun ino mem => ?_⟩
  · obtain ⟨slot, live, ptr⟩ := held.refs r mem
    exact ⟨slot, live, ptr, held.leases r.id slot live ▸ leasesAt_pos mem⟩
  · obtain ⟨slot, live⟩ := held.opened ino mem
    exact ⟨slot, live, held.opens ino slot live ▸ Multiset.count_pos.mpr mem⟩

/-- A node is inserted, leased, unlinked, given back and its number used again. -/
def recycled : TableRun Unit :=
  ((((TableRun.new ()).apply (.insert () 1)).apply (.get 2)).apply (.removeLink 2)).apply
    (.dropRef ⟨2, 1⟩) |>.apply (.insert () 1)

theorem recycled_reachable : Reachable () recycled := by
  refine .apply _ (.apply _ (.apply _ (.apply _ (.apply _ .new trivial) trivial) trivial) ?_)
    trivial
  show (⟨2, 1⟩ : Lease) ∈ _
  decide

theorem recycled_given : recycled.given = [(2, 1), (2, 0), (1, 0)] := by decide

theorem recycled_identity_never_reissued :
    recycled.given = [(2, 1), (2, 0), (1, 0)] ∧ recycled.given.Nodup :=
  ⟨recycled_given,
    (identity_never_reissued recycled_reachable (by rw [recycled_given]; decide)).2.2.2.1⟩

end TableRun

end TypedFuse
