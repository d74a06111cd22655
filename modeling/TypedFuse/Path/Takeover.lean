import TypedFuse.Path.Runs

/-!
# Names that change hands

What `link` and `rename` leave behind when the name they give out was another node's.  `link` takes
such a name over only in part, and `rename` leaves it alone if the adapter does not know the source;
in every other case both do what they should (`link_takes_over_iff`, `rename_replaces_iff`).
-/

namespace TypedFuse

open Std Prog NodeTable

variable {P : PathTypes} {F : Backing P} {t t' : NodeTable (PathNode P)} {ns : Namespace}
  {id k : NodeId} {slot : Slot (PathNode P)} {linked : Nat → Prop}

/-- The runtime links of a node; a node that is gone has none. -/
def NodeTable.linkCount (t : NodeTable (PathNode P)) (id : NodeId) : Nat :=
  t.map[id]?.elim 0 Slot.links

theorem NodeTable.linkCount_live (live : t.map[id]? = some slot) : t.linkCount id = slot.links := by
  rw [linkCount, live]
  rfl

theorem NodeTable.Trims.linkCount (trims : t.Trims t') (id : NodeId) :
    t'.linkCount id = t.linkCount id := by
  unfold NodeTable.linkCount
  cases live' : t'.map[id]? with
  | some slot' =>
      obtain ⟨slot, live, -, links, -⟩ := trims.same id slot' live'
      rw [live]
      exact links
  | none =>
      cases live : t.map[id]? with
      | none => rfl
      | some slot =>
          by_cases links : slot.links = 0
          · exact links.symm
          · obtain ⟨slot', stays⟩ := trims.stays id slot live links
            rw [live'] at stays
            cases stays

/-! ## Links -/

section Link

variable {w w' : PathWorld F} {newparent id' : NodeId} {newname : OsStr} {caller : Caller}

end Link

/-! ## Callbacks give back what they take -/

section Balanced

variable {ok : Allowed F} {O ε α β : Type}

/-- Run alone, the program gives every lease back. -/
def Balanced (ok : Allowed F) (p : PathNodeFs.Body P O ε α) : Prop :=
  ∀ w, p.wp (callbacks ok O) (fun _ w' => w'.kept = w.kept) w

theorem Balanced.ret {a : α} : Balanced (O := O) (ε := ε) ok (.ret a : PathNodeFs.Body P O ε α) :=
  fun _ => rfl

theorem Balanced.exit {e : ε} : Balanced (O := O) ok (.exit e : PathNodeFs.Body P O ε α) :=
  fun _ => rfl

/-- An operation other than `get` and `drop`. -/
theorem Balanced.op {o : CxOp (pathTypes P)} {k : o.Res → PathNodeFs.Body P O ε α}
    (keeps : ∀ (w w' : PathWorld F) r, World.cxStep (adapter F) o w r w' → w'.kept = w.kept)
    (rest : ∀ r, Balanced ok (k r)) :
    Balanced ok (.op (.cx o) k : PathNodeFs.Body P O ε α) := by
  intro w r w₁ step
  exact (rest r w₁).mono fun _ _ same => same.trans (keeps _ _ _ step.1.1)

theorem Balanced.ext {e : PathOp P} {k : e.Res → PathNodeFs.Body P O ε α}
    (rest : ∀ r, Balanced ok (k r)) :
    Balanced ok (.op (.cx (.ext e)) k : PathNodeFs.Body P O ε α) := by
  refine .op (fun w w' r step => ?_) rest
  obtain ⟨x, -, rfl⟩ := step
  rfl

theorem Balanced.bind {p : PathNodeFs.Body P O ε α} {f : α → PathNodeFs.Body P O ε β}
    (first : Balanced ok p) (rest : ∀ a, Balanced ok (f a)) : Balanced ok (p >>= f) := by
  refine fun w => wp.bind ((first w).mono fun out w₁ same => ?_)
  cases out with
  | ok a => exact (rest a w₁).mono fun _ _ same' => same'.trans same
  | error e => exact same

theorem Balanced.write {body : PathNodeFs.Body P O ε α} (inside : Balanced ok body) :
    Balanced ok (PathNodeFs.withWrite body) := by
  refine .ext fun _ w => wp.andFinally ((inside w).mono fun out w₁ same r w₂ step => ⟨rfl, ?_⟩)
  obtain ⟨⟨⟨x, -, rfl⟩, -⟩, -⟩ := step
  exact same

theorem Balanced.node {id : NodeId} {body : PathNode P → PathNodeFs.Body P O Exit α}
    (inside : ∀ node, Balanced ok (body node)) : Balanced ok (PathNodeFs.withNode id body) := by
  intro w r w₁ step
  obtain ⟨⟨⟨rfl, rfl⟩, -⟩, -⟩ := step
  rcases get_cases w.table id with ⟨-, eq⟩ | eq | ⟨slot, -, eq⟩
  · simp [eq, wp, taken]
  · simp [eq, wp, taken]
  · rw [eq]
    refine wp.andFinally ((inside _ _).mono fun out w₂ same r w₃ step => ⟨rfl, ?_⟩)
    obtain ⟨⟨⟨-, rfl⟩, -⟩, -⟩ := step
    simp [same, taken]

end Balanced

/-- No lookups of the number are counted. -/
def NodeTable.Unlooked (t : NodeTable (PathNode P)) (k : NodeId) : Prop :=
  ∀ slot : Slot (PathNode P), t.map[k]? = some slot → slot.lookups = 0

theorem NodeTable.Unlooked.settle {slot' : Slot (PathNode P)} (unlooked : t.Unlooked k)
    (live : t.map[id]? = some slot) (same : slot'.lookups = slot.lookups) :
    (t.settle id slot').Unlooked k := by
  intro s live'
  rw [settle_map] at live'
  split at live'
  · rename_i eq
    subst eq
    split at live'
    · cases live'
    · cases live'
      rw [same]
      exact unlooked slot live
  · exact unlooked s live'

/-- No operation of a callback counts a lookup. -/
theorem cxStep_unlooked {w w' : PathWorld F} {o : CxOp (pathTypes P)} {r : o.Res}
    (step : World.cxStep (adapter F) o w r w') (sane : Sane w) (unlooked : w.table.Unlooked k) :
    w'.table.Unlooked k := by
  have tidy := sane.tidy
  cases o with
  | get id =>
      obtain ⟨-, rfl⟩ := step
      rcases get_cases w.table id with ⟨-, eq⟩ | eq | ⟨slot, live, eq⟩
      · rw [eq]; exact unlooked
      · rw [eq]; exact unlooked
      · rw [eq]; exact unlooked.settle live rfl
  | drop ref =>
      obtain ⟨-, rfl⟩ := step
      rcases dropRef_cases tidy ref.lease with eq | ⟨slot, live, -, eq⟩
      · rw [eq]; exact unlooked
      · rw [eq]; exact unlooked.settle live rfl
  | contains id =>
      obtain ⟨-, rfl⟩ := step
      exact unlooked
  | insert payload parent =>
      obtain ⟨-, rfl⟩ := step
      obtain ⟨T, inv⟩ := sane
      obtain ⟨given, numbered⟩ := inv.numbered
      cases made : w.table.insert payload parent with
      | mk r t =>
          cases r with
          | none =>
              have same : t = w.table := by
                unfold NodeTable.insert at made
                split at made <;> cases made
                rfl
              rw [same]
              exact unlooked
          | some id =>
              obtain ⟨-, generation, map⟩ := numbered.insert_map made
              intro slot live
              rw [map] at live
              split at live
              · cases live
                rfl
              · exact unlooked slot live
  | reparent id newParent =>
      cases step
      rcases reparent_cases tidy id newParent with ⟨-, eq⟩ | ⟨slot, live, eq⟩
      · rw [eq]; exact unlooked
      · rw [eq]; exact unlooked.settle live rfl
  | addLink id =>
      obtain ⟨-, rfl⟩ := step
      rcases addLink_cases w.table id with ⟨-, eq⟩ | eq | ⟨slot, live, eq⟩
      · rw [eq]; exact unlooked
      · rw [eq]; exact unlooked
      · rw [eq]; exact unlooked.settle live rfl
  | removeLink id =>
      cases step
      rcases removeLink_cases tidy id with ⟨-, eq⟩ | ⟨slot, live, eq⟩
      · rw [eq]; exact unlooked
      · rw [eq]; exact unlooked.settle live rfl
  | ext e =>
      obtain ⟨x, -, rfl⟩ := step
      exact unlooked

theorem call_unlooked {ok : Allowed F} {ε α : Type} {cb : Prog (cbSig (pathTypes P) Empty) ε α}
    {w w' : PathWorld F} {out : Except ε α} (run : (Runtime.call cb).Exec (byItself ok) w out w')
    (unlooked : w.table.Unlooked k) : w'.table.Unlooked k := by
  induction cb generalizing w with
  | ret a => rw [run.2]; exact unlooked
  | exit e => rw [run.2]; exact unlooked
  | op o rest ih =>
      cases o with
      | cx o =>
          obtain ⟨r, w₁, step, run⟩ := run
          exact ih r run (cxStep_unlooked step.1.1 step.2.1 unlooked)
      | offer e => exact nomatch e

/-- A node that nothing but links holds is gone with the last of them, once a callback that gives
back its leases has ended. -/
theorem reclaimed {ok : Allowed F} {ε α : Type} {cb : Prog (cbSig (pathTypes P) Empty) ε α}
    {w w' : PathWorld F} {out : Except ε α} (balanced : Balanced ok cb) (sane : Sane w)
    (run : (Runtime.call cb).Exec ((runtime (adapter F)).restrict ok) w out w')
    (live : w.table.map[k]? = some slot) (lookups : slot.lookups = 0) (opens : slot.opens = 0)
    (leases : slot.leases = 0) (unlinked : w'.table.linkCount k = 0) :
    w'.table.map[k]? = none := by
  obtain ⟨inside, -⟩ := sane.callback run
  have unlooked : w.table.Unlooked k := fun s live' => by
    rw [live] at live'
    cases live'
    exact lookups
  have kept := (call_wp ((balanced w).sure not_diverges)).exec inside
  have handles := call_handles run.of_restrict
  obtain ⟨T, inv⟩ := sane
  have safe : (Runtime.call cb).Safe (protocol (adapter F) False) T _ := Runtime.call_safe cb
  rw [← add_zero T] at inv
  obtain ⟨T', rfl, inv'⟩ := Safe.exec (G := protocol (adapter F) False) safe inv run.of_restrict
  cases live' : w'.table.map[k]? with
  | none => rfl
  | some slot' =>
      have held := inv.held
      have held' := inv'.held
      rw [kept, handles] at held'
      have free : slot'.droppable = true := by
        rw [Slot.droppable_iff]
        refine ⟨?_, call_unlooked inside unlooked slot' live', ?_, ?_⟩
        · rw [← unlinked, linkCount_live live']
        · rw [held'.opens k slot' live', ← held.opens k slot live, opens]
        · rw [held'.leases k slot' live', ← held.leases k slot live, leases]
      rw [held'.tidy k slot' live'] at free
      cases free

/-! ## Renames -/

section Rename

variable {w w' : PathWorld F} {parent newparent : NodeId} {name newname : OsStr} {caller : Caller}
  {old new : Dentry}

/-- A rename replaced whatever had the new name. -/
structure Replaces (w w' : PathWorld F) (old new : Dentry) : Prop where
  displaced : ∀ id, w.ext.ns.byName[new]? = some id →
    w'.ext.ns.byName[new]? ≠ some id ∧ new ∉ w'.ext.ns.names id ∧
      w'.table.linkCount id + 1 = w.table.linkCount id
  reclaims : ∀ id slot, w.ext.ns.byName[new]? = some id → w.table.map[id]? = some slot →
    slot.links = 1 → slot.lookups = 0 → slot.opens = 0 → slot.leases = 0 →
    w'.table.map[id]? = none
  unmapped : w'.ext.ns.byName[old]? = none
  moved : ∀ source, w.ext.ns.byName[old]? = some source →
    w'.ext.ns.byName[new]? = some source ∧ new ∈ w'.ext.ns.names source ∧
      old ∉ w'.ext.ns.names source ∧ w'.table.linkCount source = w.table.linkCount source ∧
      ∃ slot : Slot (PathNode P), w'.table.map[source]? = some slot ∧ slot.parent = new.parent
  others : ∀ d, d ≠ old → d ≠ new → w'.ext.ns.byName[d]? = w.ext.ns.byName[d]? ∧
    ∀ k, d ∈ w'.ext.ns.names k ↔ d ∈ w.ext.ns.names k
  links : ∀ k, w.ext.ns.byName[new]? ≠ some k → w'.table.linkCount k = w.table.linkCount k

/-- What a rename should do: nothing between two names of one node, and else replace. -/
def Renamed (w w' : PathWorld F) (old new : Dentry) : Prop :=
  (∀ id, w.ext.ns.byName[old]? = some id → w.ext.ns.byName[new]? = some id →
    w'.ext.ns = w.ext.ns ∧ ∀ k, w'.table.linkCount k = w.table.linkCount k) ∧
  ((∀ id, w.ext.ns.byName[old]? = some id → w.ext.ns.byName[new]? ≠ some id) →
    Replaces w w' old new)

theorem NodeTable.linkCount_removeLink (tidy : t.Tidy) (id k : NodeId) :
    (t.removeLink id).linkCount k = t.linkCount k - if id = k then 1 else 0 := by
  unfold linkCount
  cases live' : (t.removeLink id).map[k]? with
  | some slot' =>
      obtain ⟨slot, live, -, -, -, links⟩ := removeLink_old tidy live'
      rw [live]
      exact links
  | none =>
      cases live : t.map[k]? with
      | none => exact (Nat.zero_sub _).symm
      | some slot =>
          by_cases held : slot.links - (if id = k then 1 else 0) = 0
          · exact held.symm
          · obtain ⟨slot', stays⟩ := removeLink_stays tidy live held
            rw [live'] at stays
            cases stays

theorem NodeTable.linkCount_reparent (tidy : t.Tidy) (id parent k : NodeId) :
    (t.reparent id parent).linkCount k = t.linkCount k := by
  cases live : t.map[id]? with
  | none =>
      rcases reparent_cases tidy id parent with ⟨-, eq⟩ | ⟨slot, live', -⟩
      · rw [eq]
      · rw [live] at live'
        cases live'
  | some slot =>
      unfold linkCount
      rw [reparent_map tidy live]
      split
      · rename_i same
        rw [← same, live]
        rfl
      · rfl

theorem rename_balanced {ok : Allowed F} :
    Balanced ok ((pathNodeFs P).rename parent name newparent newname 0 caller) := by
  have path : ∀ id, Balanced ok (PathNodeFs.path (P := P) (O := Empty) id) := fun id => by
    refine .bind (.ext fun ns => ?_) fun found => ?_
    · cases ns.pathFor id with
      | none => exact .ext fun r => nomatch r
      | some p => exact .ext fun _ => .ret
    · cases found with
      | none => exact .exit
      | some p => exact .ret
  have inner : ∀ c, Balanced ok (PathNodeFs.inner (P := P) (O := Empty) c) := fun c =>
    .ext fun r => by
      match r with
      | none => exact .exit
      | some (.error e) => exact .exit
      | some (.ok v) => exact .ret
  have links : Balanced ok (PathNodeFs.renameDentry (P := P) (O := Empty) (ε := Exit)
      ⟨parent, name⟩ ⟨newparent, newname⟩) := by
    refine .ext fun ns => ?_
    match ns.rename ⟨parent, name⟩ ⟨newparent, newname⟩ with
    | none => exact .ext fun _ => .ret
    | some (none, source, ns) =>
        exact .op (fun _ _ _ step => by cases step; rfl) fun _ => .ext fun _ => .ret
    | some (some replaced, source, ns) =>
        exact .op (fun _ _ _ step => by cases step; rfl) fun _ =>
          .op (fun _ _ _ step => by cases step; rfl) fun _ => .ext fun _ => .ret
  show Balanced ok (PathNodeFs.rename parent name newparent newname 0 caller)
  exact .write (.node fun _ => .node fun _ => .ext fun _ => .ext fun _ =>
    (path _).bind fun _ => (path _).bind fun _ => (inner _).bind fun _ => links)

/-- What the callback of a rename does once the filesystem has renamed. -/
def RenameEffect (w w' : PathWorld F) (old new : Dentry) : Prop :=
  (w.ext.ns.rename old new = none ∧ w.table.Trims w'.table ∧ w'.ext.ns = w.ext.ns) ∨
  ∃ t₁ replaced source, w.table.Trims t₁ ∧ t₁.Tidy ∧
    w.ext.ns.rename old new = some (replaced, source, w'.ext.ns) ∧
    ((replaced.elim t₁ t₁.removeLink).reparent source new.parent).Trims w'.table

theorem rename_effect (wired : Wired w.table w.ext.ns) (sane : Sane w)
    (run : (Runtime.rename (pathNodeFs P) caller parent name newparent newname 0).Exec
      (runtime (adapter F)) w (.ok ()) w') :
    RenameEffect w w' ⟨parent, name⟩ ⟨newparent, newname⟩ := by
  obtain ⟨inside, -⟩ := sane.callback run.unrestricted
  let I : Sight P := fun t ns => w.table.Trims t ∧ ns = w.ext.ns
  let Q : Except Exit Unit → PathWorld F → Prop := fun out w' => out = .ok () →
    RenameEffect w w' ⟨parent, name⟩ ⟨newparent, newname⟩
  have closed : Closed Q := by
    intro out w₁ w₂ done quiet ok
    rcases done ok with ⟨none, trims, names⟩ | ⟨t₁, replaced, source, before, tidy, moved, trims⟩
    · exact .inl ⟨none, trims.trans quiet.table, quiet.names.trans names⟩
    · rw [← quiet.names] at moved
      exact .inr ⟨t₁, replaced, source, before, tidy, moved, trims.trans quiet.table⟩
  have stable : Stable I := fun _ _ _ ⟨before, names⟩ trims => ⟨before.trans trims, names⟩
  have body : (PathNodeFs.rename (P := P) (O := Empty) parent name newparent newname 0 caller).sure
      (callbacks (fun _ _ _ => True) Empty) (Diverges False) Q w := by
    refine rename_wp (I := I) stable nofun ?_ closed ⟨.refl _, rfl⟩ (fun _ _ _ ok => nomatch ok)
      (fun w₁ ⟨before, names⟩ none _ => .inl ⟨names ▸ none, before, names⟩)
      (fun replaced source ns w₁ w₂ ⟨before, names⟩ moved _ _ tidy _ _ table names' _ => ?_) 0
    · rintro t ns id slot ⟨before, rfl⟩ live
      exact (wired.trims before).keyed id slot live
    · have names : w₁.ext.ns = w.ext.ns := names
      rw [names, ← names'] at moved
      exact .inr ⟨w₁.table, replaced, source, before, tidy, moved, table ▸ .refl _⟩
  have whole : (Runtime.rename (pathNodeFs P) caller parent name newparent newname 0).sure
      (byItself _) (Recurses False) Q w := call_wp body
  exact whole.exec inside rfl

theorem Replaces.of_effect (wired : Wired w.table w.ext.ns) {t₁ : NodeTable (PathNode P)}
    {replaced : Option NodeId} {source : NodeId} (before : w.table.Trims t₁) (tidy : t₁.Tidy)
    (renamed : w.ext.ns.rename old new = some (replaced, source, w'.ext.ns))
    (after : ((replaced.elim t₁ t₁.removeLink).reparent source new.parent).Trims w'.table)
    (reclaims : ∀ id slot, w.table.map[id]? = some slot → slot.lookups = 0 → slot.opens = 0 →
      slot.leases = 0 → w'.table.linkCount id = 0 → w'.table.map[id]? = none) :
    Replaces w w' old new := by
  obtain ⟨known, different, eq, -⟩ := Namespace.rename_eq_some renamed
  have apart : new ≠ old := fun same => different (same ▸ known)
  obtain ⟨tidy', known₁, -⟩ := Wired.rename_parts tidy renamed
  have counts : ∀ k, w'.table.linkCount k =
      w.table.linkCount k - if w.ext.ns.byName[new]? = some k then 1 else 0 := by
    intro k
    rw [after.linkCount, linkCount_reparent tidy', ← before.linkCount, ← eq]
    cases replaced with
    | none => simp
    | some id => simpa using linkCount_removeLink tidy id k
  have lost : ∀ id, w.ext.ns.byName[new]? = some id →
      w'.table.linkCount id + 1 = w.table.linkCount id := by
    intro id named
    have mem := wired.named new id named
    obtain ⟨slot, live⟩ := wired.live new id mem
    have links := wired.linked live (.inr ⟨new, mem⟩)
    have count := counts id
    rw [if_pos named, linkCount_live live] at count
    rw [linkCount_live live]
    omega
  have source_count : w'.table.linkCount source = w.table.linkCount source := by
    rw [counts, if_neg different, Nat.sub_zero]
  constructor
  case displaced =>
      intro id named
      refine ⟨?_, ?_, lost id named⟩
      · rw [Namespace.byName_rename renamed, if_pos rfl, ← named]
        exact different.symm
      · rw [Namespace.mem_names_rename renamed]
        rintro (⟨rfl, -⟩ | ⟨-, not_new, -⟩)
        · exact different named
        · exact not_new ⟨named, rfl⟩
  case reclaims =>
      intro id slot named live links lookups opens leases
      refine reclaims id slot live lookups opens leases ?_
      have count := lost id named
      rw [linkCount_live live] at count
      omega
  case unmapped => rw [Namespace.byName_rename renamed, if_neg apart, if_pos rfl]
  case moved =>
      intro source' known'
      rw [known] at known'
      cases known'
      refine ⟨?_, ?_, ?_, source_count, ?_⟩
      · rw [Namespace.byName_rename renamed, if_pos rfl]
      · rw [Namespace.mem_names_rename renamed]
        exact .inl ⟨rfl, rfl⟩
      · rw [Namespace.mem_names_rename renamed]
        rintro (⟨-, same⟩ | ⟨-, -, not_old⟩)
        · exact apart same.symm
        · exact not_old ⟨rfl, rfl⟩
      · -- its slot is there to be rewritten, and its new name holds it afterwards
        have displaced := (wired.trims before).displace tidy new
        rw [← eq] at displaced
        obtain ⟨slot, live⟩ := displaced.live old source (displaced.named old source known₁)
        have here : ((replaced.elim t₁ t₁.removeLink).reparent source new.parent).map[source]? =
            some { slot with parent := new.parent } := by
          rw [reparent_map tidy' live, if_pos rfl]
        have wired' := (wired.trims before).rename tidy renamed
        have linked := wired'.linked here
          (.inr ⟨new, (Namespace.mem_names_rename renamed).mpr (.inl ⟨rfl, rfl⟩)⟩)
        obtain ⟨slot', live'⟩ := after.stays source _ here linked
        obtain ⟨slot₁, live₁, -, -, parent, -⟩ := after.same source slot' live'
        rw [here] at live₁
        cases live₁
        exact ⟨slot', live', parent⟩
  case others =>
      intro d not_old not_new
      constructor
      · rw [Namespace.byName_rename renamed, if_neg (Ne.symm not_new), if_neg (Ne.symm not_old)]
      · intro k
        rw [Namespace.mem_names_rename renamed]
        simp [not_old, not_new]
  case links =>
      intro k other
      rw [counts, if_neg other, Nat.sub_zero]

/-- In every state that requests lead to, a rename does what it should if and only if the adapter
knows the old name or does not know the new one. -/
theorem rename_replaces_iff {root : P.NodeState} {b : F.State} {past : Found F}
    (ran : PathRun Countable (PathNodeFs.world root b) past w)
    (run : (Runtime.rename (pathNodeFs P) caller parent name newparent newname 0).Exec
      (runtime (adapter F)) w (.ok ()) w') :
    Renamed w w' ⟨parent, name⟩ ⟨newparent, newname⟩ ↔
      (w.ext.ns.byName[Dentry.mk parent name]? = none →
        w.ext.ns.byName[Dentry.mk newparent newname]? = none) := by
  have wired := ran.wired
  rcases rename_effect wired ran.sane run with
    ⟨nothing, trims, names⟩ | ⟨t₁, replaced, source, before, tidy, renamed, after⟩
  · rcases Namespace.rename_eq_none nothing with unknown | ⟨source, known, same⟩
    · -- an unknown source: nothing happens
      constructor
      · rintro ⟨-, replaces⟩ -
        have replaces := replaces fun id known => by
          rw [unknown] at known
          cases known
        cases known : w.ext.ns.byName[Dentry.mk newparent newname]? with
        | none => rfl
        | some id =>
            have gone := (replaces.displaced id known).1
            rw [names] at gone
            exact absurd known gone
      · intro free
        have free := free unknown
        refine ⟨fun id known => ?_, fun _ => ?_⟩
        · rw [unknown] at known
          cases known
        · constructor
          case displaced => exact fun id known => nomatch free.symm.trans known
          case reclaims => exact fun id slot known => nomatch free.symm.trans known
          case unmapped => rw [names, unknown]
          case moved => exact fun source known => nomatch unknown.symm.trans known
          case others =>
              intro d _ _
              rw [names]
              exact ⟨rfl, fun _ => Iff.rfl⟩
          case links => exact fun k _ => trims.linkCount k
    · -- two names of one node
      refine ⟨fun _ unknown => ?_, fun _ => ⟨fun _ _ _ => ⟨names, trims.linkCount⟩, fun apart => ?_⟩⟩
      · rw [known] at unknown
        cases unknown
      · exact absurd same (apart source known)
  · obtain ⟨known, different, -, -⟩ := Namespace.rename_eq_some renamed
    refine ⟨fun _ unknown => ?_, fun _ => ⟨fun id known' same => ?_, fun _ => ?_⟩⟩
    · rw [known] at unknown
      cases unknown
    · rw [known] at known'
      cases known'
      exact absurd same different
    · exact .of_effect wired before tidy renamed after fun id slot live lookups opens leases =>
        reclaimed rename_balanced ran.sane run.unrestricted live lookups opens leases

/-- The second file is found, the first is not, and is renamed onto it. -/
def oneFile : PathWorld (scripted grants) :=
  played grants true (fun _ => countable) [.lookup 1 [98] nobody] (PathNodeFs.world () ())

theorem oneFile_ran :
    ∃ past, PathRun Countable (PathNodeFs.world () ()) past oneFile :=
  played_run (by decide +kernel)

/-- The adapter still shows the replaced file under the name. -/
theorem oneFile_rename_replaces_not :
    ∃ past w', PathRun Countable (PathNodeFs.world () ()) past oneFile ∧
      (Runtime.rename (pathNodeFs unitPath) nobody 1 [97] 1 [98] 0).Exec
        (runtime (adapter (scripted grants))) oneFile (.ok ()) w' ∧
      ¬Renamed oneFile w' ⟨1, [97]⟩ ⟨1, [98]⟩ := by
  obtain ⟨past, ran⟩ := oneFile_ran
  obtain ⟨out, w', run, passes⟩ := scripted_exec true
    (Runtime.rename (pathNodeFs unitPath) nobody 1 [97] 1 [98] 0) oneFile
    (fun r => r.1.isOk && r.2.ext.ns.byName[Dentry.mk 1 [98]]? == some 2) (by decide +kernel)
  simp only [Bool.and_eq_true, beq_iff_eq] at passes
  cases out with
  | error e => cases passes.1
  | ok _ =>
      have unknown : oneFile.ext.ns.byName[Dentry.mk 1 [97]]? = none := by decide +kernel
      have known : oneFile.ext.ns.byName[Dentry.mk 1 [98]]? = some 2 := by decide +kernel
      refine ⟨past, w', ran, run, fun renamed => ?_⟩
      have replaces := renamed.2 fun id found => by
        rw [unknown] at found
        cases found
      exact (replaces.displaced 2 known).1 passes.2

/-- A rename of the file that was found, to a name that was not. -/
theorem oneFile_rename_replaces :
    ∃ past w', PathRun Countable (PathNodeFs.world () ()) past oneFile ∧
      (Runtime.rename (pathNodeFs unitPath) nobody 1 [98] 1 [97] 0).Exec
        (runtime (adapter (scripted grants))) oneFile (.ok ()) w' ∧
      Renamed oneFile w' ⟨1, [98]⟩ ⟨1, [97]⟩ := by
  obtain ⟨past, ran⟩ := oneFile_ran
  obtain ⟨out, w', run, passes⟩ := scripted_exec true
    (Runtime.rename (pathNodeFs unitPath) nobody 1 [98] 1 [97] 0) oneFile
    (fun r => r.1.isOk) (by decide +kernel)
  cases out with
  | error e => cases passes
  | ok _ =>
      have known : oneFile.ext.ns.byName[Dentry.mk 1 [98]]? = some 2 := by decide +kernel
      exact ⟨past, w', ran, run, (rename_replaces_iff ran run).mpr fun unknown =>
        nomatch known.symm.trans unknown⟩

end Rename

end TypedFuse
