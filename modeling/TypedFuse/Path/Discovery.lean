import Mathlib.Algebra.GroupWithZero.Nat
import TypedFuse.Path.Paging
import TypedFuse.Path.Runs

/-!
# What a page of a directory adds

A directory read puts each child it sends under its name before it knows whether the sink takes it,
and takes it out again if not.  `Adds` says what is left of that when the read is over: the names that
were new and were taken, each with a node of its own, and a lookup for each entry of a `readdirplus`
page that is not one of the two dots.  `page_adds_accepted` is that for every read that runs alone.
-/

namespace TypedFuse

open Std Prog NodeTable PathNodeFs

variable {P : PathTypes} {F : Backing P} {O σ ε α : Type}

/-! ## Names and nodes that are added -/

/-- A listed entry that was taken, with the node it was sent for. -/
abbrev Taken (P : PathTypes) := DirEntry P.NodeState × NodeId

/-- The lookups that an entry adds to its node. -/
def credit (counts : Bool) (name : OsStr) : Nat :=
  if counts ∧ name ≠ OsStr.dot ∧ name ≠ OsStr.dotDot then 1 else 0

/-- The lookups that entries add to the node `id`. -/
def counted (counts : Bool) (took : List (Taken P)) (id : NodeId) : Nat :=
  (took.map fun e => if e.2 = id then credit counts e.1.name else 0).sum

theorem counted_append (counts : Bool) (took : List (Taken P)) (e : Taken P) (id : NodeId) :
    counted counts (took ++ [e]) id =
      counted counts took id + if e.2 = id then credit counts e.1.name else 0 := by
  simp [counted]

/-- The names in `ns'` are those in `ns` and names of new nodes in the directory `ino`.  The nodes
have `count` lookups more than before. -/
structure Grown (ino : NodeId) (count : NodeId → Nat) (t : NodeTable (PathNode P)) (ns : Namespace)
    (t' : NodeTable (PathNode P)) (ns' : Namespace) : Prop where
  known : ∀ (d : Dentry) (id : NodeId), ns.byName[d]? = some id → ns'.byName[d]? = some id
  new : ∀ (d : Dentry) (id : NodeId), ns.byName[d]? = none → ns'.byName[d]? = some id →
    d.parent = ino ∧ t.map[id]? = none ∧ ∃ slot : Slot (PathNode P), t'.map[id]? = some slot
  names : ∀ (id : NodeId) (slot : Slot (PathNode P)), t.map[id]? = some slot →
    ns'.names id = ns.names id
  slots : ∀ (id : NodeId) (slot : Slot (PathNode P)), t.map[id]? = some slot →
    t'.map[id]? = some { slot with lookups := slot.lookups + count id }
  fresh : ∀ (id : NodeId) (slot : Slot (PathNode P)), t.map[id]? = none → t'.map[id]? = some slot →
    slot.links = 1 ∧ slot.lookups = count id ∧ ∃ d, ns.byName[d]? = none ∧
      ns'.byName[d]? = some id ∧ ns'.names id = (∅ : ExtTreeSet Dentry).insert d

section Grown

variable {ino id : NodeId} {count : NodeId → Nat} {t t₁ t₂ : NodeTable (PathNode P)}
  {ns ns₁ ns₂ : Namespace} {d : Dentry}

theorem Grown.refl (ino : NodeId) (t : NodeTable (PathNode P)) (ns : Namespace) :
    Grown ino (fun _ => 0) t ns t ns where
  known _ _ known := known
  new d id unknown known := by
    rw [unknown] at known
    cases known
  names _ _ _ := rfl
  slots _ _ live := live
  fresh id slot dead live := by
    rw [dead] at live
    cases live

/-- What is seen of table and names is all that counts. -/
theorem Grown.congr (grown : Grown ino count t ns t₁ ns₁) 
    (map : ∀ k : NodeId, t₂.map[k]? = t₁.map[k]?)
    (byName : ∀ d : Dentry, ns₂.byName[d]? = ns₁.byName[d]?)
    (names : ∀ k, ns₂.names k = ns₁.names k) :
    Grown ino count t ns t₂ ns₂ where
  known d id known := (byName d).trans (grown.known d id known)
  new d id unknown known := by
    rw [map]
    exact grown.new d id unknown ((byName d).symm.trans known)
  names id slot live := (names id).trans (grown.names id slot live)
  slots id slot live := (map id).trans (grown.slots id slot live)
  fresh id slot dead live := by
    obtain ⟨links, lookups, d, unknown, known, alone⟩ :=
      grown.fresh id slot dead ((map id).symm.trans live)
    exact ⟨links, lookups, d, unknown, (byName d).trans known, (names id).trans alone⟩

/-- A number that is free now was free before. -/
theorem Grown.dead (grown : Grown ino count t ns t₁ ns₁) (dead : t₁.map[id]? = none) :
    t.map[id]? = none := by
  cases live : t.map[id]? with
  | none => rfl
  | some slot =>
      rw [grown.slots id slot live] at dead
      cases dead

/-- A new node under a name that was not known. -/
theorem Grown.insert (grown : Grown ino count t ns t₁ ns₁) (wired : Wired t₁ ns₁)
    {given : List (Nat × Nat)} (num : t₁.Numbered given) (unknown : ns₁.byName[d]? = none)
    (inside : d.parent = ino) {payload : PathNode P} {next : Nat} (none_counted : count id = 0)
    (insert : t₁.insert payload d.parent = (some id, t₂)) :
    Grown ino count t ns t₂ (ns₁.inserted d id next) := by
  obtain ⟨dead, generation, map⟩ := num.insert_map insert
  obtain ⟨-, names⟩ := wired.insert_fresh (d := d) dead next
  have unknown₀ : ns.byName[d]? = none := by
    cases known : ns.byName[d]? with
    | none => rfl
    | some k =>
        rw [grown.known d k known] at unknown
        cases unknown
  have byName : ∀ d' : Dentry, (ns₁.inserted d id next).byName[d']? =
      if d = d' then some id else ns₁.byName[d']? := fun d' => by
    rw [Namespace.inserted_byName, Namespace.byName_addAlias]
  have other : ∀ (k : NodeId) (slot : Slot (PathNode P)), t.map[k]? = some slot → id ≠ k := by
    rintro k slot live rfl
    rw [grown.dead dead] at live
    cases live
  constructor
  case known =>
      intro d' k known
      rw [byName, if_neg, grown.known d' k known]
      rintro rfl
      rw [unknown₀] at known
      cases known
  case new =>
      intro d' k unknown' known'
      rw [byName] at known'
      rw [map]
      split at known'
      · rename_i same
        cases known'
        exact ⟨same ▸ inside, grown.dead dead, _, if_pos rfl⟩
      · obtain ⟨within, dead', slot, live⟩ := grown.new d' k unknown' known'
        refine ⟨within, dead', slot, ?_⟩
        rw [if_neg, live]
        rintro rfl
        rw [dead] at live
        cases live
  case names =>
      intro k slot live
      rw [names, if_neg (other k slot live), grown.names k slot live]
  case slots =>
      intro k slot live
      rw [map, if_neg (other k slot live), grown.slots k slot live]
  case fresh =>
      intro k slot dead' live
      rw [map] at live
      split at live
      · rename_i same
        cases live
        subst same
        refine ⟨rfl, none_counted.symm, d, unknown₀, ?_, ?_⟩
        · rw [byName, if_pos rfl]
        · rw [names, if_pos rfl]
      · rename_i ne
        obtain ⟨links, lookups, d', unknown', known', alone⟩ := grown.fresh k slot dead' live
        refine ⟨links, lookups, d', unknown', ?_, ?_⟩
        · rw [byName, if_neg, known']
          rintro rfl
          rw [unknown] at known'
          cases known'
        · rw [names, if_neg ne, alone]

/-- A node is given `n` lookups, and is live if there are any. -/
structure Credited (id : NodeId) (n : Nat) (t t' : NodeTable (PathNode P)) : Prop where
  map : ∀ k : NodeId, t'.map[k]? = t.map[k]?.map fun slot =>
    { slot with lookups := slot.lookups + if id = k then n else 0 }
  live : n ≠ 0 → ∃ slot : Slot (PathNode P), t.map[id]? = some slot

theorem Credited.zero (id : NodeId) (t : NodeTable (PathNode P)) : Credited id 0 t t where
  map k := by simp
  live nonzero := absurd rfl nonzero

theorem Credited.trims {n : Nat} (credited : Credited id n t₁ t₂) : t₁.Trims t₂ where
  stays k slot live _ := ⟨_, by rw [credited.map, live]; rfl⟩
  same k slot' live := by
    rw [credited.map] at live
    obtain ⟨slot, before, rfl⟩ := Option.map_eq_some_iff.mp live
    exact ⟨slot, before, rfl, rfl, rfl, rfl⟩

theorem Grown.credit (grown : Grown ino count t ns t₁ ns₁) {n : Nat}
    (credited : Credited id n t₁ t₂) :
    Grown ino (fun k => count k + if id = k then n else 0) t ns t₂ ns₁ where
  known := grown.known
  new d k unknown known := by
    obtain ⟨inside, dead, slot, live⟩ := grown.new d k unknown known
    exact ⟨inside, dead, _, by rw [credited.map, live]; rfl⟩
  names := grown.names
  slots k slot live := by
    rw [credited.map, grown.slots k slot live, Option.map_some]
    simp only [Nat.add_assoc]
  fresh k slot' dead live := by
    rw [credited.map] at live
    obtain ⟨slot, before, rfl⟩ := Option.map_eq_some_iff.mp live
    obtain ⟨links, lookups, rest⟩ := grown.fresh k slot dead before
    exact ⟨links, by rw [lookups], rest⟩

/-- Taking a new node out again leaves nothing of it. -/
theorem rollback_map {given : List (Nat × Nat)} (num : t.Numbered given) {payload : PathNode P}
    {parent : NodeId} (insert : t.insert payload parent = (some id, t₁)) (tidy : t₁.Tidy)
    (k : NodeId) : (t₁.removeLink id).map[k]? = t.map[k]? := by
  obtain ⟨dead, generation, map⟩ := num.insert_map insert
  have own := map id
  rw [if_pos rfl] at own
  rcases removeLink_cases tidy id with ⟨gone, -⟩ | ⟨slot, live, eq⟩
  · rw [own] at gone
    cases gone
  · rw [own] at live
    cases live
    have nothing : Slot.droppable { freshSlot t.nextPtr generation payload parent with
        links := (freshSlot t.nextPtr generation payload parent).links - 1 } = true := rfl
    rw [eq, settle_map, nothing, map]
    split
    · rename_i same
      exact (same ▸ dead).symm
    · rfl

theorem rollback_byName (unknown : ns.byName[d]? = none) {next : Nat} (d' : Dentry) :
    ((ns.inserted d id next).remove d).2.byName[d']? = ns.byName[d']? := by
  rw [Namespace.byName_remove, Namespace.inserted_byName, Namespace.byName_addAlias]
  split
  · rename_i same
    exact (same ▸ unknown).symm
  · rfl

theorem rollback_names (wired : Wired t ns) (dead : t.map[id]? = none) {next : Nat} (k : NodeId) :
    ((ns.inserted d id next).remove d).2.names k = ns.names k := by
  have known : (ns.inserted d id next).byName[d]? = some id := by
    rw [Namespace.inserted_byName, Namespace.byName_addAlias, if_pos rfl]
  obtain ⟨-, names⟩ := wired.insert_fresh (d := d) dead next
  rw [Namespace.names_remove known, names, if_pos rfl, names]
  split
  · rename_i same
    subst same
    rw [wired.names_dead dead]
    exact ExtTreeSet.ext_mem fun d' => by simp
  · rfl

/-- A lease on the directory for as long as it is read. -/
theorem Grown.unlease {slot : Slot (PathNode P)} (tidy : t.Tidy) (live : t.map[ino]? = some slot)
    (leased : ∀ k : NodeId, t₁.map[k]? =
      if ino = k then some { slot with leases := slot.leases + 1 } else t.map[k]?)
    (grown : Grown ino count t₁ ns t₂ ns₂) :
    Grown ino count t ns (t₂.dropRef ⟨ino, slot.record.ptr⟩) ns₂ := by
  have own : t₁.map[ino]? = some { slot with leases := slot.leases + 1 } := by
    rw [leased, if_pos rfl]
  have own₂ := grown.slots ino _ own
  have held : Slot.droppable { slot with lookups := slot.lookups + count ino } = false := by
    have := Slot.held_iff.mp (tidy ino slot live)
    rw [Slot.held_iff]
    dsimp only
    omega
  have map : ∀ k : NodeId, (t₂.dropRef ⟨ino, slot.record.ptr⟩).map[k]? =
      if ino = k then some { slot with lookups := slot.lookups + count ino } else t₂.map[k]? := by
    intro k
    rw [dropRef_eq own₂ rfl, settle_map]
    dsimp only
    rw [Nat.add_sub_cancel, held]
    rfl
  have was : ∀ (k : NodeId), t.map[k]? = none → t₁.map[k]? = none ∧ ino ≠ k := by
    intro k dead
    have ne : ino ≠ k := by
      rintro rfl
      rw [live] at dead
      cases dead
    exact ⟨by rw [leased, if_neg ne, dead], ne⟩
  constructor
  case known => exact grown.known
  case new =>
      intro d k unknown known
      obtain ⟨inside, dead, slot', live'⟩ := grown.new d k unknown known
      have ne : ino ≠ k := by
        rintro rfl
        rw [own] at dead
        cases dead
      rw [leased, if_neg ne] at dead
      exact ⟨inside, dead, slot', by rw [map, if_neg ne, live']⟩
  case names =>
      intro k slot' live'
      by_cases same : ino = k
      · subst same
        exact grown.names ino _ own
      · exact grown.names k slot' (by rw [leased, if_neg same, live'])
  case slots =>
      intro k slot' live'
      rw [map]
      split
      · rename_i same
        subst same
        rw [live] at live'
        cases live'
        rfl
      · rename_i ne
        exact grown.slots k slot' (by rw [leased, if_neg ne, live'])
  case fresh =>
      intro k slot' dead live'
      obtain ⟨dead, ne⟩ := was k dead
      rw [map, if_neg ne] at live'
      exact grown.fresh k slot' dead live'

end Grown

/-- The node that an entry of the directory `ino` with the parent `up` is sent for. -/
def SentFor (ino up : NodeId) (ns : Namespace) (e : Taken P) : Prop :=
  match e.1.identity with
  | .child _ => ns.byName[Dentry.mk ino e.1.name]? = some e.2
  | .current => e.2 = ino
  | .parent => e.2 = up

/-- An entry is the reason for a new name. -/
def Brings (ino : NodeId) (e : Taken P) (d : Dentry) (id : NodeId) : Prop :=
  (∃ state, e.1.identity = .child state) ∧ ⟨ino, e.1.name⟩ = d ∧ e.2 = id

/-- The names that a page with the entries `took` adds to the directory `ino`, whose parent is `up`,
with their nodes and lookups. -/
structure Adds (ino up : NodeId) (counts : Bool) (took : List (Taken P))
    (t : NodeTable (PathNode P)) (ns : Namespace) (t' : NodeTable (PathNode P)) (ns' : Namespace) :
    Prop extends Grown ino (counted counts took) t ns t' ns' where
  added : ∀ (d : Dentry) (id : NodeId), ns.byName[d]? = none → ns'.byName[d]? = some id →
    ∃ e ∈ took, Brings ino e d id
  sent : ∀ e ∈ took, SentFor ino up ns' e

/-! ## The machine of a read and its sink -/

/-- What an operation of a read does when the read runs alone; `offers` is what its sink does. -/
def pageStep (offers : O → PathWorld F × σ → Option Bool → PathWorld F × σ → Prop) :
    (o : CbOp (pathTypes P) O) → PathWorld F × σ → o.Res → PathWorld F × σ → Prop
  | .cx o, z, r, z' => World.cxStep (adapter F) o z.1 r z'.1 ∧ (Sane z.1 ∧ Sane z'.1) ∧ z'.2 = z.2
  | .offer e, z, r, z' => offers e z r z'

abbrev withSink (offers : O → PathWorld F × σ → Option Bool → PathWorld F × σ → Prop) :
    Machine (cbSig (pathTypes P) O) :=
  ⟨PathWorld F × σ, pageStep offers⟩

/-- What a sink does that keeps the entries it takes, as `view` shows them, and may count them as
lookups. -/
def Heard (counts : Bool) (label : O → OsStr × NodeId) (view : σ → List (OsStr × NodeId)) (o : O)
    (z : PathWorld F × σ) : Option Bool → PathWorld F × σ → Prop
  | none, _ => True
  | some false, z' => z'.1.table = z.1.table ∧ z'.1.ext.ns = z.1.ext.ns ∧ z'.2 = z.2
  | some true, z' => Credited (label o).2 (credit counts (label o).1) z.1.table z'.1.table ∧
      z'.1.ext.ns = z.1.ext.ns ∧ view z'.2 = view z.2 ++ [label o]

/-- Table and names and the sink are as before. -/
structure Still (z z' : PathWorld F × σ) : Prop where
  table : z'.1.table = z.1.table
  names : z'.1.ext.ns = z.1.ext.ns
  sink : z'.2 = z.2

theorem Still.refl (z : PathWorld F × σ) : Still z z := ⟨rfl, rfl, rfl⟩

theorem Still.trans {z z' z'' : PathWorld F × σ} (first : Still z z') (second : Still z' z'') :
    Still z z'' :=
  ⟨second.table.trans first.table, second.names.trans first.names, second.sink.trans first.sink⟩

section Steps

variable {offers : O → PathWorld F × σ → Option Bool → PathWorld F × σ → Prop} {z : PathWorld F × σ}
  {Q : Except ε α → PathWorld F × σ → Prop} {d : Dentry}

theorem still_wp {e : PathOp P} {k : e.Res → Body P O ε α} (stays : ∀ ns, e ≠ .unlock ns)
    (rest : ∀ r z', Still z z' → (k r).wp (withSink offers) Q z') :
    Prog.wp (withSink offers) (.op (.cx (.ext e)) k) Q z := by
  rintro r z' ⟨step, -, sink⟩
  obtain ⟨table, names⟩ := ext_quiet step stays
  exact rest r z' ⟨table, names, sink⟩

theorem still_lock {use : NamespaceUse} {k : Namespace → Body P O ε α}
    (rest : ∀ z', Still z z' → (k z.1.ext.ns).wp (withSink offers) Q z') :
    Prog.wp (withSink offers) (.op (.cx (.ext (.lock use))) k) Q z := by
  rintro ns z' ⟨step, -, sink⟩
  obtain ⟨table, names⟩ := ext_quiet step nofun
  obtain ⟨x, ⟨-, rfl, -⟩, -⟩ := step
  exact rest z' ⟨table, names, sink⟩

theorem page_unlock {ns : Namespace} {k : Unit → Body P O ε α}
    (rest : ∀ z', z'.1.table = z.1.table → z'.1.ext.ns = ns → z'.2 = z.2 →
      (k ()).wp (withSink offers) Q z') :
    Prog.wp (withSink offers) (.op (.cx (.ext (.unlock ns))) k) Q z := by
  rintro r z' ⟨step, -, sink⟩
  obtain ⟨x, rfl, eq⟩ := step
  exact rest z' (by rw [eq]) (by rw [eq]) sink

theorem page_nodePath {node : PathNode P} {Q : Except ε (Option Path) → PathWorld F × σ → Prop}
    (rest : ∀ path z', Still z z' → Q (.ok path) z') :
    (nodePath node).wp (withSink offers) Q z := by
  refine wp.bind (still_lock fun z₁ still₁ => page_unlock fun z₂ table names sink => ?_)
  have still₂ : Still z z₂ := ⟨table.trans still₁.table, names, sink.trans still₁.sink⟩
  cases found : z.1.ext.ns.idForNode node.key with
  | none => exact rest none z₂ still₂
  | some id =>
      refine still_lock fun z₃ still₃ => ?_
      cases way : z₂.1.ext.ns.pathFor id with
      | none =>
          intro r
          exact nomatch r
      | some path =>
          refine page_unlock fun z₄ table names sink => rest path z₄ (still₂.trans ?_)
          exact ⟨table.trans still₃.table, names, sink.trans still₃.sink⟩

theorem page_insert {state : P.NodeState} {Q : Except Exit (NodeId × Bool) → PathWorld F × σ → Prop}
    (known : ∀ id z', Still z z' → z.1.ext.ns.byName[d]? = some id → Q (.ok (id, false)) z')
    (panics : ∀ z', Q (.error .panic) z')
    (fresh : ∀ id z', z.1.ext.ns.byName[d]? = none → (∃ given, z.1.table.Numbered given) →
      z.1.table.insert ⟨z.1.ext.ns.nextKey, state⟩ d.parent = (some id, z'.1.table) →
      z'.1.ext.ns = z.1.ext.ns.inserted d id (z.1.ext.ns.nextKey + 1) → z'.2 = z.2 →
      Q (.ok (id, true)) z') :
    (PathNodeFs.insert d state).wp (withSink offers) Q z := by
  refine still_lock fun z₁ still₁ => ?_
  cases name : z.1.ext.ns.byName[d]? with
  | some id =>
      refine page_unlock fun z₂ table names sink => known id z₂ ?_ name
      exact ⟨table.trans still₁.table, names, sink.trans still₁.sink⟩
  | none =>
      dsimp only
      cases add : checkedAdd 64 z.1.ext.ns.nextKey with
      | none => exact page_unlock fun z₂ _ _ _ => panics z₂
      | some next =>
          cases checkedAdd_eq_some add
          rintro r z₂ ⟨step, ⟨⟨T, inv⟩, -⟩, sink⟩
          obtain ⟨made, eq⟩ := step
          have numbered := inv.numbered
          rw [still₁.table] at numbered made
          match r with
          | none => exact page_unlock fun z₃ _ _ _ => panics z₃
          | some id =>
              refine page_unlock fun z₃ table names sink' => fresh id z₃ name numbered ?_ names
                (sink'.trans (sink.trans still₁.sink))
              rw [table, eq, still₁.table, made]

theorem page_removeDentry {Q : Except ε Unit → PathWorld F × σ → Prop} {id : NodeId}
    (known : z.1.ext.ns.byName[d]? = some id)
    (rest : ∀ z', z.1.table.Tidy → z'.1.table = z.1.table.removeLink id →
      z'.1.ext.ns = (z.1.ext.ns.remove d).2 → z'.2 = z.2 → Q (.ok ()) z') :
    (removeDentry d).wp (withSink offers) Q z := by
  refine still_lock fun z₁ still₁ => ?_
  have first : (z.1.ext.ns.remove d).1 = some id := Namespace.remove_fst.trans known
  cases removed : z.1.ext.ns.remove d with
  | mk gone ns =>
      rw [removed] at first
      cases first
      rintro r z₂ ⟨step, ⟨sane, -⟩, sink⟩
      have tidy := sane.tidy
      rw [still₁.table] at tidy
      refine page_unlock fun z₃ table names sink' => rest z₃ tidy ?_ ?_ ?_
      · rw [table, step, still₁.table]
      · rw [names, removed]
      · exact sink'.trans (sink.trans still₁.sink)

end Steps

/-! ## How far a read has come -/

/-- The names and nodes that the entries `took` have added, given that the entries `sent` account for
all new names. -/
structure Progress (ino up : NodeId) (counts : Bool) (view : σ → List (OsStr × NodeId))
    (z₀ : PathWorld F × σ) (took sent : List (Taken P)) (z : PathWorld F × σ) : Prop where
  grown : Grown ino (counted counts took) z₀.1.table z₀.1.ext.ns z.1.table z.1.ext.ns
  added : ∀ (d : Dentry) (id : NodeId), z₀.1.ext.ns.byName[d]? = none →
    z.1.ext.ns.byName[d]? = some id → ∃ e ∈ sent, Brings ino e d id
  sent : ∀ e ∈ sent, SentFor ino up z.1.ext.ns e
  wired : Wired z.1.table z.1.ext.ns
  page : view z.2 = view z₀.2 ++ took.map fun e => (e.1.name, e.2)
  untouched : took = [] → z.2 = z₀.2
  live : ∀ e ∈ took, credit counts e.1.name ≠ 0 →
    ∃ slot : Slot (PathNode P), z.1.table.map[e.2]? = some slot

namespace Progress

variable {ino up id : NodeId} {counts : Bool} {view : σ → List (OsStr × NodeId)}
  {z₀ z z' : PathWorld F × σ} {took sent : List (Taken P)} {entry : DirEntry P.NodeState}

theorem start (wired : Wired z.1.table z.1.ext.ns) : Progress ino up counts view z [] [] z where
  grown := .refl ino _ _
  added d id unknown known := by
    rw [unknown] at known
    cases known
  sent := nofun
  wired := wired
  page := by simp
  untouched _ := rfl
  live := nofun

/-- What is seen of table, names and sink is all that counts. -/
theorem congr (progress : Progress ino up counts view z₀ took sent z)
    (wired : Wired z'.1.table z'.1.ext.ns) (map : ∀ k : NodeId, z'.1.table.map[k]? = z.1.table.map[k]?)
    (byName : ∀ d : Dentry, z'.1.ext.ns.byName[d]? = z.1.ext.ns.byName[d]?)
    (names : ∀ k, z'.1.ext.ns.names k = z.1.ext.ns.names k) (sink : z'.2 = z.2) :
    Progress ino up counts view z₀ took sent z' where
  grown := progress.grown.congr map byName names
  added d id unknown known := progress.added d id unknown ((byName d).symm.trans known)
  sent e mem := by
    have before := progress.sent e mem
    unfold SentFor at before ⊢
    cases same : e.1.identity with
    | child state =>
        rw [same] at before
        exact (byName _).trans before
    | current =>
        rw [same] at before
        exact before
    | parent =>
        rw [same] at before
        exact before
  wired := wired
  page := by rw [sink, progress.page]
  untouched none_taken := sink.trans (progress.untouched none_taken)
  live e mem nonzero := by
    rw [map]
    exact progress.live e mem nonzero

theorem same (progress : Progress ino up counts view z₀ took sent z)
    (table : z'.1.table = z.1.table) (names : z'.1.ext.ns = z.1.ext.ns)
    (sink : z'.2 = z.2) : Progress ino up counts view z₀ took sent z' := by
  refine progress.congr ?_ (fun k => by rw [table]) (fun d => by rw [names]) (fun k => by rw [names])
    sink
  rw [table, names]
  exact progress.wired

theorem still (progress : Progress ino up counts view z₀ took sent z) (still : Still z z') :
    Progress ino up counts view z₀ took sent z' :=
  progress.same still.table still.names still.sink

/-- A free number has no lookups. -/
theorem counted_dead (progress : Progress ino up counts view z₀ took sent z)
    (dead : z.1.table.map[id]? = none) : counted counts took id = 0 := by
  refine List.sum_eq_zero_iff_forall_eq_nat.mpr fun n mem => ?_
  obtain ⟨e, taken, rfl⟩ := List.mem_map.mp mem
  split
  · rename_i same
    by_contra nonzero
    obtain ⟨slot, live⟩ := progress.live e taken nonzero
    rw [same, dead] at live
    cases live
  · rfl

/-- An entry for a node that is there can be sent. -/
theorem offer (progress : Progress ino up counts view z₀ took took z)
    (own : SentFor ino up z.1.ext.ns (entry, id)) :
    Progress ino up counts view z₀ took (took ++ [(entry, id)]) z where
  grown := progress.grown
  added d k unknown known := by
    obtain ⟨e, mem, brings⟩ := progress.added d k unknown known
    exact ⟨e, List.mem_append_left _ mem, brings⟩
  sent e mem := by
    rcases List.mem_append.mp mem with old | new
    · exact progress.sent e old
    · cases List.mem_singleton.mp new
      exact own
  wired := progress.wired
  page := progress.page
  untouched := progress.untouched
  live := progress.live

/-- A new name is put in for an entry that is to be sent. -/
theorem insert (progress : Progress ino up counts view z₀ took took z) {state : P.NodeState}
    (child : entry.identity = .child state)
    (unknown : z.1.ext.ns.byName[Dentry.mk ino entry.name]? = none)
    {given : List (Nat × Nat)} (num : z.1.table.Numbered given)
    (made : z.1.table.insert ⟨z.1.ext.ns.nextKey, state⟩ ino = (some id, z'.1.table))
    (names : z'.1.ext.ns = z.1.ext.ns.inserted ⟨ino, entry.name⟩ id (z.1.ext.ns.nextKey + 1))
    (sink : z'.2 = z.2) : Progress ino up counts view z₀ took (took ++ [(entry, id)]) z' := by
  obtain ⟨dead, generation, map⟩ := num.insert_map made
  have byName : ∀ d : Dentry, z'.1.ext.ns.byName[d]? =
      if Dentry.mk ino entry.name = d then some id else z.1.ext.ns.byName[d]? := fun d => by
    rw [names, Namespace.inserted_byName, Namespace.byName_addAlias]
  constructor
  case grown =>
      rw [names]
      exact progress.grown.insert progress.wired num unknown rfl (progress.counted_dead dead) made
  case added =>
      intro d k unknown' known
      rw [byName] at known
      split at known
      · rename_i same
        cases known
        exact ⟨_, List.mem_append_right _ List.mem_cons_self, ⟨state, child⟩, same, rfl⟩
      · obtain ⟨e, mem, brings⟩ := progress.added d k unknown' known
        exact ⟨e, List.mem_append_left _ mem, brings⟩
  case sent =>
      intro e mem
      unfold SentFor
      rcases List.mem_append.mp mem with old | new
      · have before := progress.sent e old
        unfold SentFor at before
        cases same : e.1.identity with
        | child state' =>
            rw [same] at before
            have other : Dentry.mk ino entry.name ≠ Dentry.mk ino e.1.name := by
              intro eq
              rw [eq, before] at unknown
              cases unknown
            exact (byName _).trans ((if_neg other).trans before)
        | current =>
            rw [same] at before
            exact before
        | parent =>
            rw [same] at before
            exact before
      · cases List.mem_singleton.mp new
        dsimp only
        rw [child]
        exact (byName _).trans (if_pos rfl)
  case wired =>
      rw [names]
      exact progress.wired.insert num made
  case page => rw [sink, progress.page]
  case untouched => exact fun none_taken => sink.trans (progress.untouched none_taken)
  case live =>
      intro e mem nonzero
      obtain ⟨slot, live⟩ := progress.live e mem nonzero
      refine ⟨slot, ?_⟩
      rw [map, if_neg, live]
      intro eq
      rw [← eq, dead] at live
      cases live

/-- The entry is taken. -/
theorem take (progress : Progress ino up counts view z₀ took (took ++ [(entry, id)]) z)
    (credited : Credited id (credit counts entry.name) z.1.table z'.1.table)
    (names : z'.1.ext.ns = z.1.ext.ns) (sink : view z'.2 = view z.2 ++ [(entry.name, id)]) :
    Progress ino up counts view z₀ (took ++ [(entry, id)]) (took ++ [(entry, id)]) z' := by
  constructor
  case grown =>
      have counts_same : (fun k => counted counts took k + if id = k then credit counts entry.name else 0) =
          counted counts (took ++ [(entry, id)]) :=
        funext fun k => (counted_append counts took (entry, id) k).symm
      rw [← counts_same, names]
      exact progress.grown.credit credited
  case added => rw [names]; exact progress.added
  case sent => rw [names]; exact progress.sent
  case wired => rw [names]; exact progress.wired.trims credited.trims
  case page => rw [sink, progress.page, List.map_append, List.append_assoc]; rfl
  case untouched => exact fun none_taken => by simp at none_taken
  case live =>
      intro e mem nonzero
      have before : ∃ slot : Slot (PathNode P), z.1.table.map[e.2]? = some slot := by
        rcases List.mem_append.mp mem with old | new
        · exact progress.live e old nonzero
        · cases List.mem_singleton.mp new
          exact credited.live nonzero
      obtain ⟨slot, live⟩ := before
      exact ⟨_, by rw [credited.map, live]; rfl⟩

/-- An entry that was put in and is refused is taken out again. -/
theorem rollback (progress : Progress ino up counts view z₀ took sent z) {state : P.NodeState}
    {d : Dentry} {z₁ : PathWorld F × σ} (unknown : z.1.ext.ns.byName[d]? = none)
    {given : List (Nat × Nat)} (num : z.1.table.Numbered given)
    (made : z.1.table.insert ⟨z.1.ext.ns.nextKey, state⟩ d.parent = (some id, z₁.1.table))
    (names : z₁.1.ext.ns = z.1.ext.ns.inserted d id (z.1.ext.ns.nextKey + 1))
    (tidy : z₁.1.table.Tidy) (table' : z'.1.table = z₁.1.table.removeLink id)
    (names' : z'.1.ext.ns = (z₁.1.ext.ns.remove d).2) (sink : z'.2 = z.2) :
    Progress ino up counts view z₀ took sent z' := by
  obtain ⟨dead, -⟩ := num.insert_map made
  have known : (z.1.ext.ns.inserted d id (z.1.ext.ns.nextKey + 1)).byName[d]? = some id := by
    rw [Namespace.inserted_byName, Namespace.byName_addAlias, if_pos rfl]
  have wired := (progress.wired.insert num made).remove tidy known
  rw [names] at names'
  refine progress.congr ?_ (fun k => ?_) (fun d' => ?_) (fun k => ?_) sink
  · rw [table', names']
    exact wired
  · rw [table']
    exact rollback_map num made tidy k
  · rw [names']
    exact rollback_byName unknown d'
  · rw [names']
    exact rollback_names progress.wired dead k

end Progress

/-! ## The loop of a read -/

section Loop

variable {ino up : NodeId} {counts : Bool} {view : σ → List (OsStr × NodeId)}
  {label : O → OsStr × NodeId}
  {z₀ z : PathWorld F × σ} {took : List (Taken P)}

/-- The call of the sink with a listed entry. -/
def Asks (F : Backing P) (counts : Bool) (label : O → OsStr × NodeId)
    (view : σ → List (OsStr × NodeId)) (entry : DirEntry P.NodeState) (id : NodeId)
    (p : Body P O Exit Bool) : Prop :=
  ∀ z : PathWorld F × σ, p.wp (withSink (Heard counts label view)) (fun out z' =>
    (∀ e, out ≠ .error (.errno e)) ∧ ∀ took, out = .ok took →
      ∃ o, label o = (entry.name, id) ∧ Heard counts label view o z (some took) z') z

/-- What is left of an entry that was offered: a step forward, or nothing. -/
def Stepped (ino up : NodeId) (counts : Bool) (view : σ → List (OsStr × NodeId))
    (z₀ : PathWorld F × σ) (took : List (Taken P)) (entry : DirEntry P.NodeState)
    (out : Except Exit Bool) (z : PathWorld F × σ) : Prop :=
  (∀ e, out ≠ .error (.errno e)) ∧
    (out = .ok false → Progress ino up counts view z₀ took took z) ∧
    (out = .ok true → ∃ id, Progress ino up counts view z₀ (took ++ [(entry, id)])
      (took ++ [(entry, id)]) z)

/-- An entry for a node that is there. -/
theorem asked_known (progress : Progress ino up counts view z₀ took took z)
    {entry : DirEntry P.NodeState} {id : NodeId} (own : SentFor ino up z.1.ext.ns (entry, id))
    {p : Body P O Exit Bool} (asks : Asks F counts label view entry id p) :
    p.wp (withSink (Heard counts label view)) (Stepped ino up counts view z₀ took entry) z := by
  refine (asks z).mono fun out z₁ ⟨fine, took⟩ => ⟨fine, fun refused => ?_, fun taken => ?_⟩
  · obtain ⟨o, -, step⟩ := took false refused
    obtain ⟨table, names, sink⟩ := step
    exact progress.same table names sink
  · obtain ⟨o, labelled, step⟩ := took true taken
    obtain ⟨credited, names, sink⟩ := step
    rw [labelled] at credited sink
    exact ⟨id, (progress.offer own).take credited names sink⟩

theorem addListedEntry_steps (progress : Progress ino up counts view z₀ took took z)
    (entry : DirEntry P.NodeState) {add : NodeId → Body P O Exit Bool}
    (asks : ∀ id, Asks F counts label view entry id (add id)) :
    (addListedEntry ino up entry add).wp (withSink (Heard counts label view))
      (Stepped ino up counts view z₀ took entry) z := by
  unfold addListedEntry
  cases child : entry.identity with
  | current => exact asked_known progress (by simp [SentFor, child]) (asks ino)
  | parent => exact asked_known progress (by simp [SentFor, child]) (asks up)
  | child state =>
      refine wp.bind (page_insert (fun id z₁ still known => ?_) (fun z₁ => ⟨nofun, nofun, nofun⟩)
        fun id z₁ unknown numbered made names sink => ?_)
      · have own : SentFor ino up z₁.1.ext.ns (entry, id) := by
          simp only [SentFor, child]
          rw [still.names, known]
        refine wp.bind ((asked_known (progress.still still) own (asks id)).mono
          fun out z₂ stepped => ?_)
        cases out with
        | error e => exact ⟨fun e' same => stepped.1 e' same, nofun, nofun⟩
        | ok accepted =>
            show Prog.wp _ (if _ then _ else _) _ _
            rw [if_neg (by simp)]
            exact stepped
      · obtain ⟨given, num⟩ := numbered
        refine wp.bind ((asks id z₁).mono fun out z₂ ⟨fine, took⟩ => ?_)
        match out with
        | .error e => exact ⟨fun e' same => fine e' same, nofun, nofun⟩
        | .ok true =>
            refine ⟨nofun, nofun, fun _ => ?_⟩
            obtain ⟨o, labelled, step⟩ := took true rfl
            obtain ⟨credited, names', sink'⟩ := step
            rw [labelled] at credited sink'
            exact ⟨id, (progress.insert child unknown num made names sink).take credited names' sink'⟩
        | .ok false =>
            obtain ⟨o, -, step⟩ := took false rfl
            obtain ⟨table, names', sink'⟩ := step
            have known : z₂.1.ext.ns.byName[Dentry.mk ino entry.name]? = some id := by
              rw [names', names, Namespace.inserted_byName, Namespace.byName_addAlias, if_pos rfl]
            refine wp.bind (page_removeDentry known fun z₃ tidy table₃ names₃ sink₃ => ?_)
            refine ⟨nofun, fun _ => ?_, nofun⟩
            rw [table] at tidy table₃
            rw [names'] at names₃
            refine progress.rollback unknown num made names tidy table₃ names₃ ?_
            rw [sink₃, sink', sink]

theorem replayed_still {dir : PathNodeRef P} {stale plus : Bool} {caller : Caller}
    (listed : DirEntry P.NodeState) (z : PathWorld F × σ) :
    (replayed dir stale plus caller listed).wp (withSink (Heard counts label view))
      (fun out z' => (∀ e, out ≠ .error (.errno e)) ∧ Still z z') z := by
  unfold replayed
  cases listed.identity with
  | current => exact ⟨nofun, .refl z⟩
  | parent => exact ⟨nofun, .refl z⟩
  | child state =>
      dsimp only
      split
      · refine still_wp nofun fun r z₁ still => ?_
        match r with
        | none => exact ⟨nofun, still⟩
        | some (.ok none) => exact ⟨nofun, still⟩
        | some (.ok (some found)) => exact ⟨nofun, still⟩
        | some (.error e) => exact ⟨nofun, still⟩
      · exact ⟨nofun, .refl z⟩

/-- The entries that the loop sends on from here. -/
theorem replayFrom_steps {generation : Nat} {dir : PathNodeRef P} {stale plus : Bool}
    {caller : Caller} {emit : DirEntry P.NodeState → Nat → Body P O Exit Bool}
    (emits : ∀ e next took z, Progress ino up counts view z₀ took took z →
      (emit e next).wp (withSink (Heard counts label view)) (Stepped ino up counts view z₀ took e) z)
    (entries : List (DirEntry P.NodeState)) (index : Nat)
    (progress : Progress ino up counts view z₀ took took z) :
    (replayFrom generation (replayed dir stale plus caller) emit entries index took.length).wp
      (withSink (Heard counts label view)) (fun out z' => (∀ e, out ≠ .error (.errno e)) ∧
        ∀ n failure, out = .ok (n, failure) →
          ∃ took', n = took'.length ∧ Progress ino up counts view z₀ took' took' z') z := by
  induction entries generalizing index took z with
  | nil =>
      refine ⟨nofun, fun n failure same => ?_⟩
      cases same
      exact ⟨took, rfl, progress⟩
  | cons listed entries ih =>
      refine wp.bind ((replayed_still listed z).mono fun out z₁ ⟨fine, still⟩ => ?_)
      have progress := progress.still still
      match out with
      | .error e =>
          refine ⟨fun e' same => ?_, nofun⟩
          cases same
          exact fine e' rfl
      | .ok .skip => exact ih (index + 1) progress
      | .ok (.failed e) =>
          refine ⟨nofun, fun n failure same => ?_⟩
          cases same
          exact ⟨took, rfl, progress⟩
      | .ok (.send entry) =>
          refine wp.bind ((emits entry _ took z₁ progress).mono fun out z₂ ⟨fine, refused, taken⟩ => ?_)
          match out with
          | .error e =>
              refine ⟨fun e' same => ?_, nofun⟩
              cases same
              exact fine e' rfl
          | .ok false =>
              refine ⟨nofun, fun n failure same => ?_⟩
              cases same
              exact ⟨took, rfl, refused rfl⟩
          | .ok true =>
              obtain ⟨id, further⟩ := taken rfl
              have rest := ih (index + 1) further
              rw [List.length_append] at rest
              exact rest

theorem replayListing_steps {dir : PathNode P} {path : Path} {listing : DirListing P.NodeState}
    {start : Nat} {plus : Bool} {caller : Caller}
    {emit : DirEntry P.NodeState → Nat → Body P O Exit Bool}
    (emits : ∀ e next took z, Progress ino up counts view z₀ took took z →
      (emit e next).wp (withSink (Heard counts label view)) (Stepped ino up counts view z₀ took e) z)
    (progress : Progress ino up counts view z₀ [] [] z) :
    (replayListing dir path listing start plus caller emit).wp (withSink (Heard counts label view))
      (fun out z' => (∀ e, out = .error (.errno e) → Progress ino up counts view z₀ [] [] z') ∧
        ∀ n, out = .ok n → ∃ took, Progress ino up counts view z₀ took took z') z := by
  refine still_wp nofun fun epoch z₁ still => wp.bind ((replayFrom_steps emits _ _
    (progress.still still)).mono fun out z₂ ⟨fine, ends⟩ => ?_)
  match out with
  | .error e =>
      refine ⟨fun e' same => ?_, nofun⟩
      cases same
      exact absurd rfl (fine e')
  | .ok (0, some e) =>
      obtain ⟨took, none_taken, done⟩ := ends 0 (some e) rfl
      cases List.length_eq_zero_iff.mp none_taken.symm
      exact ⟨fun _ _ => done, nofun⟩
  | .ok (0, none) | .ok (n + 1, none) | .ok (n + 1, some e) =>
      obtain ⟨took, -, done⟩ := ends _ _ rfl
      exact ⟨nofun, fun _ _ => ⟨took, done⟩⟩

theorem directoryListing_still (dir : PathNode P) (path : Path) (handle : PathDirHandle P)
    (offset : Nat) (caller : Caller) (z : PathWorld F × σ) :
    (directoryListing dir path handle offset caller).wp (withSink (Heard counts label view))
      (fun _ z' => Still z z') z := by
  have refresh : ∀ z₁, Still z z₁ → ∀ start : Nat,
      Prog.wp (withSink (Heard counts label view)) (.op (.cx (.ext (.entriesEpoch dir.key))) fun epoch =>
        inner (.listDir ⟨some path, dir⟩ handle.inner caller) >>= fun buffer =>
          if maxListingLen < buffer.entries.length then .exit (.errno .EOVERFLOW)
          else .op (.cx (.ext (.push handle.listings epoch buffer))) fun listing =>
            .ret (DirRead.listing listing start true))
        (fun (_ : Except Exit (DirRead P.NodeState)) z' => Still z z') z₁ := by
    intro z₁ still₁ start
    refine still_wp nofun fun epoch z₂ still₂ => still_wp nofun fun r z₃ still₃ => ?_
    have still₃ := still₁.trans (still₂.trans still₃)
    match r with
    | none => exact still₃
    | some (.error e) => exact still₃
    | some (.ok buffer) =>
        show Prog.wp _ (if _ then _ else _) _ _
        split
        · exact still₃
        · exact still_wp nofun fun _ z₄ still₄ => still₃.trans still₄
  unfold directoryListing
  dsimp only
  split
  · exact refresh z (.refl z) _
  · refine still_wp nofun fun r z₁ still => ?_
    match r with
    | some read => exact still
    | none => exact refresh z₁ still _

theorem withRead_still {body : Body P O ε α} {Q : Except ε α → PathWorld F × σ → Prop}
    (closed : ∀ out z₁ z₂, Q out z₁ → Still z₁ z₂ → Q out z₂)
    (inside : ∀ z', Still z z' → body.wp (withSink (Heard counts label view)) Q z') :
    (withRead body).wp (withSink (Heard counts label view)) Q z := by
  refine still_wp nofun fun _ z₁ still₁ =>
    wp.andFinally ((inside z₁ still₁).mono fun out z₂ done => ?_)
  exact still_wp nofun fun _ z₃ still₃ => ⟨rfl, closed out z₂ z₃ done still₃⟩

/-- What a directory read of the node `ino` has added when it ends. -/
def Read (ino up : NodeId) (counts : Bool) (view : σ → List (OsStr × NodeId))
    (z₀ : PathWorld F × σ) (out : Except Exit Unit) (z : PathWorld F × σ) : Prop :=
  (∀ e, out = .error (.errno e) → Progress ino up counts view z₀ [] [] z) ∧
    (out = .ok () → ∃ took, Progress ino up counts view z₀ took took z)

theorem Read.still {z' : PathWorld F × σ} {out : Except Exit Unit}
    (read : Read ino up counts view z₀ out z) (still : Still z z') :
    Read ino up counts view z₀ out z' := by
  refine ⟨fun e failed => (read.1 e failed).still still, fun ended => ?_⟩
  obtain ⟨took, progress⟩ := read.2 ended
  exact ⟨took, progress.still still⟩

theorem readDirectory_steps (wired : Wired z.1.table z.1.ext.ns) {node : PathNode P}
    {handle : PathDirHandle P} {offset : Nat} {plus : Bool} {caller : Caller}
    (offer : DirEntry P.NodeState → NodeId → Nat → Option O)
    (labels : ∀ e id next o, offer e id next = some o → label o = (e.name, id)) :
    (readDirectory node ino up handle offset plus caller offer).wp (withSink (Heard counts label view))
      (Read ino up counts view z) z := by
  refine withRead_still (fun _ _ _ read still => read.still still) fun z₁ still₁ =>
    wp.bind (page_nodePath fun path z₂ still₂ => ?_)
  have progress : Progress ino up counts view z [] [] z₂ :=
    (Progress.start wired).still (still₁.trans still₂)
  match path with
  | none => exact ⟨fun _ _ => progress, nofun⟩
  | some p =>
      refine wp.bind ((directoryListing_still node p handle offset caller z₂).mono
        fun out z₃ still₃ => ?_)
      have progress := progress.still still₃
      match out with
      | .error e => exact ⟨fun _ _ => progress, nofun⟩
      | .ok .ended => exact ⟨nofun, fun _ => ⟨[], progress⟩⟩
      | .ok (.listing listing start owned) =>
          refine wp.bind ((replayListing_steps (fun e next took z progress =>
            addListedEntry_steps progress e fun id z => ?_) progress).mono
            fun out z₄ ⟨fails, ends⟩ => ?_)
          · cases asked : offer e id next with
            | none => exact ⟨nofun, nofun⟩
            | some o =>
                intro r z' step
                match r with
                | none => exact ⟨nofun, nofun⟩
                | some took =>
                    refine ⟨nofun, fun took' same => ?_⟩
                    cases same
                    exact ⟨o, labels e id next o asked, step⟩
          · match out with
            | .error e =>
                refine ⟨fun e' same => ?_, nofun⟩
                cases same
                exact fails e' rfl
            | .ok accepted =>
                obtain ⟨took, progress⟩ := ends accepted rfl
                show Prog.wp _ (if _ then _ else _) _ _
                split
                · exact still_wp nofun fun _ z₅ still₅ => ⟨nofun, fun _ => ⟨took, progress.still still₅⟩⟩
                · exact ⟨nofun, fun _ => ⟨took, progress⟩⟩

end Loop

/-! ## The sinks of the runtime -/

section Sinks

variable {ok : Allowed F} {counts : Bool} {label : O → OsStr × NodeId}
  {view : σ → List (OsStr × NodeId)} {w : PathWorld F}

/-- A sink that does as `Heard` says. -/
def Hears (ok : Allowed F) (counts : Bool) (label : O → OsStr × NodeId)
    (view : σ → List (OsStr × NodeId)) (sink : O → σ → Action (pathTypes P) (Option Bool × σ)) :
    Prop :=
  ∀ e s w, (sink e s).wp (byItself ok) (fun out w' =>
    ∃ r s', out = .ok (r, s') ∧ Heard counts label view e (w, s) r (w', s')) w

theorem callRead_steps {sink : O → σ → Action (pathTypes P) (Option Bool × σ)}
    (hears : Hears ok counts label view sink) {cb : ReadCallback (pathTypes P) O α} {s : σ}
    {Q : Except Exit (Except Exit α × σ) → PathWorld F → Prop}
    (body : cb.wp (withSink (Heard counts label view)) (fun out z => Q (.ok (out, z.2)) z.1) (w, s)) :
    (Runtime.callRead sink cb s).wp (byItself ok) Q w := by
  have ops : ∀ (o : CbOp (pathTypes P) O) (s : σ) (w : PathWorld F),
      (Runtime.readOp sink o s).wp (byItself ok) (fun out w' =>
        ∃ r s', out = .ok (r, s') ∧ pageStep (Heard counts label view) o (w, s) r (w', s')) w := by
    intro o s w
    cases o with
    | cx o => exact fun r w' step => ⟨r, s, rfl, step.1.1, step.2, rfl⟩
    | offer e => exact hears e s w
  exact wp.interpStateWith ops body

theorem pageSink_hears (ino : Nat) : Hears ok false (fun e : DirOffer => (e.name, e.id))
    (fun page : List DirOffer => page.map fun e => (e.name, e.id)) (pageSink (K := pathTypes P) ino) := by
  intro e page w took w' step
  have same : w' = w := step.1.1
  subst same
  refine ⟨_, _, rfl, ?_⟩
  cases took with
  | false => exact ⟨rfl, rfl, rfl⟩
  | true =>
      refine ⟨?_, rfl, by simp⟩
      have uncounted : credit false e.name = 0 := by simp [credit]
      rw [uncounted]
      exact .zero _ _

theorem Credited.retainLookup {t t' : NodeTable (PathNode P)} {id : NodeId} {generation : Nat}
    (retained : t.retainLookup id = (some (some generation), t')) : Credited id 1 t t' := by
  rcases retainLookup_cases t id with ⟨-, eq⟩ | eq | ⟨slot, live, eq⟩
  · rw [retained] at eq
    cases eq
  · rw [retained] at eq
    cases eq
  · rw [retained] at eq
    obtain ⟨-, rfl⟩ := Prod.mk.inj eq
    refine ⟨fun k => ?_, fun _ => ⟨slot, live⟩⟩
    rw [settle_map, Slot.held_iff.mpr (.inr (.inl (Nat.succ_ne_zero _)))]
    split
    · rename_i same
      rw [← same, live]
      rfl
    · simp

theorem accounting_hears (ino : Nat) : Hears ok true (fun e : PlusOffer => (e.name, e.id))
    (fun s : Runtime.Accounting (List PlusEntry) => s.inner.map fun e => (e.name, e.entry.ino))
    (Runtime.Accounting.add (plusPageSink (K := pathTypes P) ino)) := by
  intro offer s w generation w₁ step
  obtain ⟨found, same⟩ : generation = w.table.generationOf offer.id ∧ w₁ = w := step.1.1
  subst same
  match generation with
  | none => exact ⟨_, _, rfl, rfl, rfl, rfl⟩
  | some generation =>
      intro took w₂ step
      have same : w₂ = w₁ := step.1.1
      subst same
      cases took with
      | false => exact ⟨_, _, rfl, rfl, rfl, rfl⟩
      | true =>
          show Prog.wp _ (if _ then _ else _) _ _
          by_cases dots : offer.name ≠ OsStr.dot ∧ offer.name ≠ OsStr.dotDot
          · rw [if_pos dots]
            intro r w₃ step
            obtain ⟨retained, eq⟩ : r = (w₂.table.retainLookup offer.id).1 ∧
                w₃ = { w₂ with table := (w₂.table.retainLookup offer.id).2 } := step.1.1
            match r with
            | none => exact ⟨_, _, rfl, trivial⟩
            | some none =>
                -- the node was there when its generation was read
                obtain ⟨slot, live, -⟩ := Option.map_eq_some_iff.mp found.symm
                rcases retainLookup_cases w₂.table offer.id with ⟨dead, -⟩ | eq | ⟨slot, -, eq⟩
                · rw [live] at dead
                  cases dead
                · rw [eq] at retained
                  cases retained
                · rw [eq] at retained
                  cases retained
            | some (some g) =>
                refine ⟨_, _, rfl, ?_, by rw [eq], by simp⟩
                have counted : credit true offer.name = 1 := by simp [credit, dots]
                rw [counted, eq]
                exact Credited.retainLookup (Prod.ext retained.symm rfl)
          · rw [if_neg dots]
            refine ⟨_, _, rfl, ?_, rfl, by simp⟩
            have uncounted : credit true offer.name = 0 := by
              rw [credit, if_neg]
              exact fun counts => dots counts.2
            rw [uncounted]
            exact .zero _ _

end Sinks

/-! ## The requests -/

section Requests

variable {ok : Allowed F} {w w' : PathWorld F} {ino fh : Nat} {counts : Bool}

theorem Progress.adds {up : NodeId} {view : σ → List (OsStr × NodeId)} {z₀ z : PathWorld F × σ}
    {took : List (Taken P)} (progress : Progress ino up counts view z₀ took took z) :
    Adds ino up counts took z₀.1.table z₀.1.ext.ns z.1.table z.1.ext.ns :=
  ⟨progress.grown, progress.added, progress.sent⟩

/-- A read of the directory `ino` whose page shows these names and nodes leads from `w` to `w'`. -/
def PageAdds (ino : NodeId) (counts : Bool) (w : PathWorld F) (shown : List (OsStr × NodeId))
    (w' : PathWorld F) : Prop :=
  ∃ (up : NodeId) (took : List (Taken P)), shown = took.map (fun e => (e.1.name, e.2)) ∧
    (took ≠ [] → w.table.parentOf ino = some up) ∧
    Adds ino up counts took w.table w.ext.ns w'.table w'.ext.ns

/-- Nothing is shown, and nothing is added. -/
theorem Adds.nothing (up : NodeId) (t : NodeTable (PathNode P)) (ns : Namespace) :
    Adds ino up counts [] t ns t ns := by
  refine ⟨.refl ino t ns, fun d id unknown known => ?_, nofun⟩
  rw [unknown] at known
  cases known

/-- A lease on the directory for as long as it is read. -/
theorem Adds.unlease {up : NodeId} {took : List (Taken P)} {slot : Slot (PathNode P)}
    {t t₁ t₂ : NodeTable (PathNode P)} {ns ns₂ : Namespace} (tidy : t.Tidy)
    (live : t.map[ino]? = some slot)
    (leased : ∀ k : NodeId, t₁.map[k]? =
      if ino = k then some { slot with leases := slot.leases + 1 } else t.map[k]?)
    (adds : Adds ino up counts took t₁ ns t₂ ns₂) :
    Adds ino up counts took t ns (t₂.dropRef ⟨ino, slot.record.ptr⟩) ns₂ :=
  ⟨adds.toGrown.unlease tidy live leased, adds.added, adds.sent⟩

/-- The sections of a directory handle leave table and names alone. -/
theorem dir_still (w : PathWorld F) : (Runtime.dir (K := pathTypes P) ino fh).wp (byItself ok)
    (fun _ w' => w'.table = w.table ∧ w'.ext.ns = w.ext.ns) w := by
  have sections : ∀ (J : Sight P) (o : HandleOp), Stays ok J (Runtime.dirs (K := pathTypes P) o) := by
    intro J o w holds
    refine ⟨not_false, fun r w₁ step => ?_⟩
    obtain ⟨dirs, -, rfl⟩ := step.1.1
    exact holds
  have stays := handleLease_stays (sections fun t ns => t = w.table ∧ ns = w.ext.ns) ino fh
  exact (stays w ⟨rfl, rfl⟩).wp

/-- The scope of a directory read; `shows` is what the way out shows of the page. -/
theorem onDir_adds {shows : Except Exit α → Option (List (OsStr × NodeId))}
    (empty : ∀ e shown, shows (.error e) = some shown → shown = [])
    {body : PathNode P → NodeId → PathDirHandle P → Action (pathTypes P) α}
    (wired : Wired w.table w.ext.ns)
    (inside : ∀ n up h w₁, Wired w₁.table w₁.ext.ns →
      (body n up h).wp (byItself ok) (fun out w₂ => ∀ shown, shows out = some shown →
        ∃ took, shown = took.map (fun e : Taken P => (e.1.name, e.2)) ∧
          Adds ino up counts took w₁.table w₁.ext.ns w₂.table w₂.ext.ns) w₁) :
    (Runtime.onDir ino fh body).wp (byItself ok)
      (fun out w' => ∀ shown, shows out = some shown → PageAdds ino counts w shown w') w := by
  intro r w₁ step
  have tidy : w.table.Tidy := step.2.1.tidy
  obtain ⟨rfl, rfl⟩ : r = (w.table.get ino).1 ∧ w₁ = { w with table := (w.table.get ino).2 } :=
    step.1.1
  have unread : ∀ e, ∀ shown, shows (.error e) = some shown → PageAdds ino counts w shown w := by
    intro e shown shows
    rw [empty e shown shows]
    exact ⟨ino, [], rfl, fun some_taken => absurd rfl some_taken, .nothing _ _ _⟩
  rcases get_cases w.table ino with ⟨-, eq⟩ | eq | ⟨slot, live, eq⟩
  · rw [eq]
    exact unread _
  · rw [eq]
    exact unread _
  · rw [eq]
    have leased : ∀ k : NodeId, (w.table.settle ino { slot with leases := slot.leases + 1 }).map[k]? =
        if ino = k then some { slot with leases := slot.leases + 1 } else w.table.map[k]? := by
      intro k
      rw [settle_map, Slot.held_iff.mpr (.inr (.inr (.inr (Nat.succ_ne_zero _))))]
      rfl
    have wired₁ : Wired (w.table.settle ino { slot with leases := slot.leases + 1 }) w.ext.ns :=
      wired.trims (trims_settle live rfl rfl rfl rfl)
    generalize w.table.settle ino { slot with leases := slot.leases + 1 } = t₁ at leased wired₁
    have fin : ∀ out w₂, (∀ shown, shows out = some shown → ∃ (up : NodeId) (took : List (Taken P)),
          shown = took.map (fun e => (e.1.name, e.2)) ∧
            (took ≠ [] → w.table.parentOf ino = some up) ∧
            Adds ino up counts took t₁ w.ext.ns w₂.table w₂.ext.ns) →
        Prog.wp (byItself ok) (.op (.dropRef ⟨ino, slot.record⟩) Prog.ret : Action (pathTypes P) Unit)
          (fun ended w₃ => ended = .ok () ∧
            ∀ shown, shows out = some shown → PageAdds ino counts w shown w₃) w₂ := by
      intro out w₂ done r w₃ step
      obtain rfl : w₃ = { w₂ with table := w₂.table.dropRef ⟨ino, slot.record.ptr⟩ } := step.1.1
      refine ⟨rfl, fun shown shows => ?_⟩
      obtain ⟨up, took, eq, parent, adds⟩ := done shown shows
      exact ⟨up, took, eq, parent, adds.unlease tidy live leased⟩
    have unread₁ : ∀ (e : Exit) (w₂ : PathWorld F), w₂.table = t₁ ∧ w₂.ext.ns = w.ext.ns →
        ∀ shown, shows (.error e) = some shown → ∃ (up : NodeId) (took : List (Taken P)),
          shown = took.map (fun e => (e.1.name, e.2)) ∧
            (took ≠ [] → w.table.parentOf ino = some up) ∧
            Adds ino up counts took t₁ w.ext.ns w₂.table w₂.ext.ns := by
      rintro e w₂ ⟨rfl, names⟩ shown shows
      rw [empty e shown shows, names]
      exact ⟨ino, [], rfl, fun some_taken => absurd rfl some_taken, .nothing _ _ _⟩
    refine wp.andFinally (Prog.wp.mono ?_ fin)
    intro parent w₂ step
    obtain ⟨parent_eq, rfl⟩ : parent = t₁.parentOf ino ∧ w₂ = { w with table := t₁ } := step.1.1
    have same_parent : t₁.parentOf ino = w.table.parentOf ino := by
      rw [NodeTable.parentOf, NodeTable.parentOf, leased, if_pos rfl, live]
      rfl
    match parent with
    | none => exact unread₁ _ _ ⟨rfl, rfl⟩
    | some up =>
        refine wp.bind ((dir_still _).mono fun out w₃ same => ?_)
        cases out with
        | error e => exact unread₁ _ _ same
        | ok h =>
            obtain ⟨table, names⟩ : w₃.table = t₁ ∧ w₃.ext.ns = w.ext.ns := same
            have wired₃ : Wired w₃.table w₃.ext.ns := by
              rw [table, names]
              exact wired₁
            refine wp.andFinally ((inside _ up h w₃ wired₃).mono fun out w₄ done => ?_)
            intro r w₅ step
            obtain ⟨dirs, -, rfl⟩ := step.1.1
            refine ⟨rfl, fun shown shows => ?_⟩
            obtain ⟨took, eq, adds⟩ := done shown shows
            rw [table, names] at adds
            exact ⟨up, took, eq, fun _ => same_parent ▸ parent_eq.symm, adds⟩

/-- What a way out shows of a page; nothing is said about a panic. -/
def shownBy {α : Type} (shown : α → List (OsStr × NodeId)) :
    Except Exit α → Option (List (OsStr × NodeId))
  | .ok page => some (shown page)
  | .error (.errno _) => some []
  | .error .panic => none

theorem shownBy_error {α : Type} {shown : α → List (OsStr × NodeId)} (e : Exit)
    (ls : List (OsStr × NodeId)) (shows : shownBy shown (.error e) = some ls) : ls = [] := by
  cases e with
  | errno _ => exact (Option.some.inj shows).symm
  | panic => cases shows

theorem readdir_adds (wired : Wired w.table w.ext.ns) (offset : Nat) (caller : Caller) :
    (Runtime.readdir (pathNodeFs P) ino fh caller (pageSink ino) [] offset).wp (byItself ok)
      (fun out w' => ∀ shown, shownBy (fun page => page.map fun e => (e.name, e.id)) out = some shown →
        PageAdds ino false w shown w') w := by
  refine onDir_adds shownBy_error wired fun n up h w₁ wired₁ => ?_
  have read : ((pathNodeFs P).readdir n ino up h offset caller).wp
      (withSink (Heard false (fun e : DirOffer => (e.name, e.id))
        fun page : List DirOffer => page.map fun e => (e.name, e.id)))
      (Read ino up false (fun page : List DirOffer => page.map fun e => (e.name, e.id)) (w₁, []))
      (w₁, []) :=
    readDirectory_steps wired₁ (fun e id next => some (⟨e.name, id, e.kind, next⟩ : DirOffer))
      fun e id next o eq => by cases eq; rfl
  have hears : Hears ok false _ _ (pageSink (K := pathTypes P) ino) := pageSink_hears ino
  refine wp.bind (callRead_steps hears (read.mono fun out z ⟨fails, ends⟩ => ?_))
  match out with
  | .ok _ =>
      obtain ⟨took, progress⟩ := ends rfl
      intro shown shows
      cases shows
      exact ⟨took, progress.page, progress.adds⟩
  | .error (.errno e) =>
      intro shown shows
      cases shows
      exact ⟨[], rfl, (fails e rfl).adds⟩
  | .error .panic => exact nofun

theorem readdirplus_adds (wired : Wired w.table w.ext.ns) (offset : Nat) (caller : Caller) :
    (Runtime.readdirplus (pathNodeFs P) ino fh caller (plusPageSink ino) [] offset).wp (byItself ok)
      (fun out w' => ∀ shown,
        shownBy (fun page => page.2.map fun e => (e.name, e.entry.ino)) out = some shown →
        PageAdds ino true w shown w') w := by
  refine onDir_adds shownBy_error wired fun n up h w₁ wired₁ => ?_
  have read : ((pathNodeFs P).readdirplus n ino up h offset caller).wp
      (withSink (Heard true (fun e : PlusOffer => (e.name, e.id))
        fun s : Runtime.Accounting (List PlusEntry) => s.inner.map fun e => (e.name, e.entry.ino)))
      (Read ino up true (fun s : Runtime.Accounting (List PlusEntry) =>
        s.inner.map fun e => (e.name, e.entry.ino)) (w₁, ⟨[], []⟩))
      (w₁, ⟨[], []⟩) :=
    readDirectory_steps wired₁
      (fun e id next => e.attr.map fun attr => (⟨e.name, id, attr, next⟩ : PlusOffer))
      fun e id next o eq => by
        obtain ⟨attr, -, rfl⟩ := Option.map_eq_some_iff.mp eq
        rfl
  have hears : Hears ok true _ _ (Runtime.Accounting.add (plusPageSink (K := pathTypes P) ino)) :=
    accounting_hears ino
  refine wp.bind (callRead_steps hears (read.mono fun out z ⟨fails, ends⟩ => ?_))
  match out with
  | .ok _ =>
      obtain ⟨took, progress⟩ := ends rfl
      intro shown shows
      cases shows
      exact ⟨took, progress.page, progress.adds⟩
  | .error (.errno e) =>
      have progress := fails e rfl
      have none_accepted : z.2.accepted = [] := by rw [progress.untouched rfl]
      show Prog.wp _ (Runtime.forgetEach _ z.2.accepted >>= _) _ _
      rw [none_accepted]
      intro shown shows
      cases shows
      exact ⟨[], rfl, progress.adds⟩
  | .error .panic => exact nofun

/-- The names and nodes of the entries on a page. -/
def Reply.shown : Reply → List (OsStr × NodeId)
  | .page entries => entries.map fun e => (e.name, e.id)
  | .plusPage _ entries => entries.map fun e => (e.name, e.entry.ino)
  | _ => []

/-- After any requests, a `readdir` or `readdirplus` that runs alone and does not panic adds the names
of the entries on its page that were not known, each with a node of its own, and nothing else; a
`readdirplus` adds a lookup for each entry that is not one of the two dots. -/
theorem page_adds_accepted {root : P.NodeState} {b : F.State} {past : Found F}
    {out : Except Exit Reply} {shown : List (OsStr × NodeId)}
    (ran : PathRun Countable (PathNodeFs.world root b) past w) (offset : Nat) (caller : Caller)
    (shows : shownBy Reply.shown out = some shown) :
    (((Request.readdir ino fh offset caller).run (pathNodeFs P)).Exec (runtime (adapter F)) w out w' →
      PageAdds ino false w shown w') ∧
    (((Request.readdirplus ino fh offset caller).run (pathNodeFs P)).Exec (runtime (adapter F)) w out
      w' → PageAdds ino true w shown w') := by
  have wired := ran.wired
  constructor
  · intro run
    obtain ⟨inside, -⟩ := ran.sane.request run.unrestricted
    have adds : ((Request.readdir ino fh offset caller).run (pathNodeFs P)).wp
        (byItself fun _ _ _ => True)
        (fun out (w' : PathWorld F) => ∀ shown, shownBy Reply.shown out = some shown →
          PageAdds ino false w shown w') w := by
      refine wp.bind ((readdir_adds wired offset caller).mono fun out w' adds => ?_)
      match out with
      | .ok page => exact adds
      | .error (.errno e) => exact adds
      | .error .panic => exact adds
    exact adds.exec inside shown shows
  · intro run
    obtain ⟨inside, -⟩ := ran.sane.request run.unrestricted
    have adds : ((Request.readdirplus ino fh offset caller).run (pathNodeFs P)).wp
        (byItself fun _ _ _ => True)
        (fun out (w' : PathWorld F) => ∀ shown, shownBy Reply.shown out = some shown →
          PageAdds ino true w shown w') w := by
      refine wp.bind ((readdirplus_adds wired offset caller).mono fun out w' adds => ?_)
      match out with
      | .ok page => exact adds
      | .error (.errno e) => exact adds
      | .error .panic => exact adds
    exact adds.exec inside shown shows

end Requests

/-! ## A page of two entries -/

/-- The directory itself, and a file in it. -/
def rootListed : DirBuffer Unit where
  entries := [⟨OsStr.dot, .directory, some ⟨.directory, 0, 2⟩, .current⟩, plusListed]
  pushed := by
    intro e mem
    rcases List.mem_pair.mp mem with rfl | rfl
    · exact .dot _
    · exact .pushPlus [98] ⟨.regularFile, 0, 1⟩ ()

def oneFileIn : (c : InnerCall unitPath) → c.Res
  | .opendir _ _ _ => some (.ok ⟨(), {}⟩)
  | .listDir _ _ _ => some (.ok rootListed)
  | _ => some (.error .ENOSYS)

/-- The root has been opened. -/
def rootOpened : PathWorld (scripted oneFileIn) :=
  played oneFileIn true (fun _ => countable) [.opendir 1 0 nobody] (PathNodeFs.world () ())

/-- A `readdirplus` of it adds the file, which gets the number 2. -/
theorem rootOpened_page_adds : ∃ past out w',
    PathRun Countable (PathNodeFs.world () ()) past rootOpened ∧
    ((Request.readdirplus 1 1 0 nobody).run (pathNodeFs unitPath)).Exec
      (runtime (adapter (scripted oneFileIn))) rootOpened out w' ∧
    PageAdds 1 true rootOpened [(OsStr.dot, 1), ([98], 2)] w' := by
  obtain ⟨past, ran⟩ : ∃ past, PathRun Countable (PathNodeFs.world () ()) past rootOpened :=
    played_run (by decide +kernel)
  obtain ⟨out, w', run, passes⟩ := scripted_exec true
    ((Request.readdirplus 1 1 0 nobody).run (pathNodeFs unitPath)) rootOpened
    (fun (out, _) => shownBy Reply.shown out = some [(OsStr.dot, 1), ([98], 2)]) (by decide +kernel)
  have shows : shownBy Reply.shown out = some [(OsStr.dot, 1), ([98], 2)] := by simpa using passes
  exact ⟨past, out, w', ran, run, (page_adds_accepted ran 0 nobody shows).2 run⟩

end TypedFuse
