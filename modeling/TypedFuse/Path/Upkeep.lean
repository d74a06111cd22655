import TypedFuse.Path.Sections

/-!
# Conditions that requests keep

A condition on the node table and the names is kept by the requests to a `Runtime<PathNodeFs>`, run
one after another, if the sections of the adapter keep it.  Requests that may discover names need the
rules of `Grows`; `unlink`, `rmdir`, `rename` and `link` each change one name on purpose, and have a
rule of their own that leads from one condition to another.
-/

namespace TypedFuse

open Std Prog NodeTable PathNodeFs

variable {P : PathTypes} {F : Backing P} {O ε α : Type}

/-- A condition on the node table and the names. -/
abbrev Sight (P : PathTypes) := NodeTable (PathNode P) → Namespace → Prop

def Holds (J : Sight P) (w : PathWorld F) : Prop := J w.table w.ext.ns

/-- A condition that quiet steps keep. -/
def Stable (J : Sight P) : Prop :=
  ∀ (t t' : NodeTable (PathNode P)) (ns : Namespace), J t ns → t.Trims t' → J t' ns

/-- With the condition every `path_for` ends. -/
def Ending (J : Sight P) : Prop :=
  ∀ (t : NodeTable (PathNode P)) (ns : Namespace), J t ns → ∀ id, ns.pathFor id ≠ none

/-- What is known of a directory while names are discovered in it. -/
abbrev Spot := Namespace → NodeId → Prop

/-- A condition kept by the discovery of names, and by taking a name just discovered back; and what
both leave true of the directory. -/
structure Grows (ok : Allowed F) (J : Sight P) (A : Spot) : Prop where
  stable : Stable J
  keyed : ∀ {t ns id} {slot : Slot (PathNode P)}, J t ns → t.map[id]? = some slot →
    ns.keys[slot.record.payload.key]? = some id
  enters : ∀ {ns id}, ns.Placed id → A ns id
  usedKey : ∀ {t ns}, J t ns → J t { ns with nextKey := ns.nextKey + 1 }
  usedSpot : ∀ {ns id}, A ns id → A { ns with nextKey := ns.nextKey + 1 } id
  insert : ∀ {given d id state t'} {w : PathWorld F}, Holds J w → w.table.Numbered given →
    w.ext.ns.byName[d]? = none → A w.ext.ns d.parent →
    Permits ok w (.insert ⟨w.ext.ns.nextKey, state⟩ d.parent) (some id) →
    PutsBack ok (w.ext.ns.inserted d id (w.ext.ns.nextKey + 1)) →
    w.table.insert ⟨w.ext.ns.nextKey, state⟩ d.parent = (some id, t') →
    J t' (w.ext.ns.inserted d id (w.ext.ns.nextKey + 1)) ∧
      A (w.ext.ns.inserted d id (w.ext.ns.nextKey + 1)) d.parent
  rollback : ∀ {t₁ ns₁ d id} {w : PathWorld F}, J t₁ ns₁ → ns₁.byName[d]? = none → Holds J w →
    A w.ext.ns d.parent → w.table.Tidy → w.ext.ns.byName[d]? = some id →
    Permits ok w (.removeLink id) () →
    J (w.table.removeLink id) (w.ext.ns.remove d).2 ∧ A (w.ext.ns.remove d).2 d.parent

/-- Run alone, the program keeps the condition, and no `path_for` of it goes on for ever if the
condition says so. -/
def KeepsTo (ok : Allowed F) (J : Sight P) (p : Body P O ε α) : Prop :=
  ∀ w, Holds J w → p.sure (callbacks ok O) (Diverges (Ending J)) (fun _ w' => Holds J w') w

section Parts

variable {ok : Allowed F} {J : Sight P} {w w' : PathWorld F}

theorem Ending.holds (ends : Ending J) (holds : Holds J w) (id : NodeId) :
    w.ext.ns.pathFor id ≠ none :=
  ends _ _ holds id

theorem Stable.quiet (stable : Stable J) (holds : Holds J w) (quiet : Quiet w w') : Holds J w' := by
  unfold Holds
  rw [quiet.names]
  exact stable _ _ _ holds quiet.table

theorem Stable.closed (stable : Stable J) :
    Closed (F := F) (fun (_ : Except ε α) w => Holds J w) :=
  fun _ _ _ holds quiet => stable.quiet holds quiet

theorem inner_keeps (stable : Stable J) (c : InnerCall P) : KeepsTo ok J (inner (O := O) c) :=
  fun _ holds => inner_wp (fun _ _ quiet _ => stable.quiet holds quiet)
    fun _ _ quiet => stable.quiet holds quiet

theorem KeepsTo.bind {β : Type} {p : Body P O ε α} {f : α → Body P O ε β} (first : KeepsTo ok J p)
    (rest : ∀ a, KeepsTo ok J (f a)) : KeepsTo ok J (p >>= f) :=
  fun w holds => sure.bind ((first w holds).mono fun out w' holds' => by
    cases out with
    | ok a => exact rest a w' holds'
    | error e => exact holds')

theorem onNode_keeps (stable : Stable J) (node : PathNode P) {f : PathNodeRef P → Body P O ε α}
    (rest : ∀ ref, KeepsTo ok J (f ref)) : KeepsTo ok J (onNode node f) :=
  fun _ holds => withRead_wp stable.closed fun _ quiet =>
    sure.bind (nodePath_wp (·.holds (stable.quiet holds quiet)) fun _ w₂ quiet' _ =>
      rest _ w₂ (stable.quiet holds (quiet.trans quiet')))

theorem onPath_keeps (stable : Stable J) (node : PathNode P) {f : PathNodeRef P → Body P O Exit α}
    (rest : ∀ ref, KeepsTo ok J (f ref)) : KeepsTo ok J (onPath node f) := by
  intro w holds
  refine withRead_wp stable.closed fun w₁ quiet =>
    sure.bind (nodePath_wp (·.holds (stable.quiet holds quiet)) fun path w₂ quiet' _ => ?_)
  have holds' := stable.quiet holds (quiet.trans quiet')
  match path with
  | none => exact holds'
  | some p => exact rest _ w₂ holds'

/-- The callback runs `f` with the directory's path in hand. -/
theorem changeIn_wp {parent : NodeId} {f : PathNodeRef P → Body P O Exit α} (stable : Stable J)
    (holds : Holds J w)
    (inside : ∀ ref w', Holds J w' → w'.ext.ns.Placed parent →
      (f ref).sure (callbacks ok O) (Diverges (Ending J)) (fun _ w' => Holds J w') w') :
    (changeIn parent f).sure (callbacks ok O) (Diverges (Ending J)) (fun _ w' => Holds J w') w := by
  refine withWrite_wp stable.closed fun w₁ quiet₁ => withNode_wp stable.closed
    (fun _ _ quiet => stable.quiet holds (quiet₁.trans quiet)) fun node w₂ quiet₂ _ => ?_
  refine ext_wp rfl fun _ w₃ quiet₃ _ => ?_
  have holds₃ := stable.quiet holds ((quiet₁.trans quiet₂).trans quiet₃)
  refine sure.bind (path_wp (·.holds holds₃) (fun p w₄ quiet₄ way => ?_) fun _ w₄ quiet₄ => ?_)
  · refine inside _ w₄ (stable.quiet holds₃ quiet₄) ?_
    rw [quiet₄.names]
    exact ⟨p, way⟩
  · exact stable.quiet holds₃ quiet₄

end Parts

/-! ## Discovery -/

section Discovery

variable {ok : Allowed F} {J : Sight P} {A : Spot} {w w' : PathWorld F} {this parent : NodeId}

/-- The condition, and what is known of the directory. -/
def HoldsAt (J : Sight P) (A : Spot) (this : NodeId) (w : PathWorld F) : Prop :=
  Holds J w ∧ A w.ext.ns this

theorem HoldsAt.quiet (stable : Stable J) (holds : HoldsAt J A this w) (quiet : Quiet w w') :
    HoldsAt J A this w' :=
  ⟨stable.quiet holds.1 quiet, by rw [quiet.names]; exact holds.2⟩

/-- What `insert` leaves behind. -/
theorem Grows.insert_wp (grows : Grows ok J A) (holds : HoldsAt J A this w) {name : OsStr}
    {state : P.NodeState} {Q : Except Exit (NodeId × Bool) → PathWorld F → Prop}
    (fails : ∀ e w', HoldsAt J A this w' → Q (.error e) w')
    (known : ∀ id w', HoldsAt J A this w' → Q (.ok (id, false)) w')
    (fresh : ∀ id w', w.ext.ns.byName[Dentry.mk this name]? = none →
      w'.ext.ns.byName[Dentry.mk this name]? = some id → HoldsAt J A this w' →
      Q (.ok (id, true)) w') :
    (PathNodeFs.insert ⟨this, name⟩ state).sure (callbacks ok O) (Diverges (Ending J)) Q w := by
  refine TypedFuse.insert_wp (fun id w₁ quiet _ => known id w₁ (holds.quiet grows.stable quiet))
    (fun w₁ table names => fails _ w₁ ?_)
    fun id w₁ unknown numbered permits back made names => ?_
  · have ⟨here, spot⟩ := holds
    unfold Holds at here
    unfold HoldsAt Holds
    rw [table]
    rcases names with names | names
    · rw [names]
      exact ⟨here, spot⟩
    · rw [names]
      exact ⟨grows.usedKey here, grows.usedSpot spot⟩
  · obtain ⟨given, numbered⟩ := numbered
    refine fresh id w₁ unknown ?_ ?_
    · rw [names, Namespace.inserted_byName, Namespace.byName_addAlias, if_pos rfl]
    · unfold HoldsAt Holds
      rw [names]
      exact grows.insert holds.1 numbered unknown holds.2 permits back made

theorem setEntryAttr_wp (stable : Stable J) (holds : HoldsAt J A this w) (id : NodeId)
    (attr : NodeAttr) :
    (PathNodeFs.withNode id fun node => (.op (.cx (.ext (.setEntryAttr node.key attr))) .ret :
      Body P O Exit Unit)).sure (callbacks ok O) (Diverges (Ending J)) (fun _ w' => HoldsAt J A this w') w := by
  refine withNode_wp (fun _ _ _ holds quiet => holds.quiet stable quiet)
    (fun _ _ quiet => holds.quiet stable quiet) fun node w₁ quiet _ => ?_
  exact ext_wp rfl fun _ w₂ quiet' _ => holds.quiet stable (quiet.trans quiet')

theorem addNode_wp (grows : Grows ok J A) (holds : HoldsAt J A this w) (name : OsStr)
    (entry : PathEntry P) :
    (addNode this name entry).sure (callbacks ok O) (Diverges (Ending J)) (fun _ w' => HoldsAt J A this w') w := by
  refine sure.bind ((grows.insert_wp (Q := fun _ w' => HoldsAt J A this w') holds
    (fun _ _ holds => holds) (fun _ _ holds => holds)
    fun _ _ _ _ holds => holds).mono fun out w₁ here₁ => ?_)
  match out with
  | .error e => exact here₁
  | .ok (id, _) =>
      refine sure.bind ((setEntryAttr_wp grows.stable here₁ id entry.attr).mono fun out w₂ here₂ => ?_)
      cases out with
      | ok _ => exact here₂
      | error e => exact here₂

/-- An entry that the sink refuses leaves no name behind. -/
theorem addListedEntry_wp (grows : Grows ok J A) (holds : HoldsAt J A this w)
    (entry : DirEntry P.NodeState) {add : NodeId → Body P O Exit Bool}
    (offers : ∀ id w, (add id).sure (callbacks ok O) (Diverges (Ending J)) (fun _ w' => Quiet w w') w) :
    (addListedEntry this parent entry add).sure (callbacks ok O) (Diverges (Ending J)) (fun _ w' => HoldsAt J A this w') w := by
  unfold addListedEntry
  cases entry.identity with
  | current => exact (offers _ w).mono fun _ _ quiet => holds.quiet grows.stable quiet
  | parent => exact (offers _ w).mono fun _ _ quiet => holds.quiet grows.stable quiet
  | child state =>
      refine sure.bind (grows.insert_wp holds (fun _ _ holds => holds) (fun id w₁ holds₁ => ?_)
        fun id w₁ unknown name holds₁ => ?_)
      · refine sure.bind ((offers id w₁).mono fun out w₂ quiet => ?_)
        have holds₂ := holds₁.quiet grows.stable quiet
        cases out with
        | error e => exact holds₂
        | ok accepted =>
            show Prog.sure _ _ (if _ then _ else _) _ _
            rw [if_neg (by simp)]
            exact holds₂
      · refine sure.bind ((offers id w₁).mono fun out w₂ quiet => ?_)
        have holds₂ := holds₁.quiet grows.stable quiet
        match out with
        | .error e => exact holds₂
        | .ok true => exact holds₂
        | .ok false =>
            rw [← quiet.names] at name
            refine sure.bind (removeDentry_wp (fun w₃ quiet' _ => holds₂.quiet grows.stable quiet')
              fun id' w₃ name' tidy permits table names => ?_)
            rw [name] at name'
            cases name'
            have rolled := grows.rollback holds.1 unknown holds₂.1 holds₂.2 tidy name permits
            rw [← table, ← names] at rolled
            exact rolled

theorem lookup_keeps (grows : Grows ok J A) (parent : NodeId) (name : OsStr) (caller : Caller) :
    KeepsTo ok J (PathNodeFs.lookup (P := P) (O := O) parent name caller) := by
  intro w holds
  refine withRead_wp grows.stable.closed fun w₁ quiet₁ => withNode_wp grows.stable.closed
    (fun _ _ quiet => grows.stable.quiet holds (quiet₁.trans quiet)) fun node w₂ quiet₂ _ => ?_
  have holds₂ := grows.stable.quiet holds (quiet₁.trans quiet₂)
  refine sure.bind (path_wp (·.holds holds₂) (fun p w₃ quiet₃ way => ?_) fun _ w₃ quiet₃ =>
    grows.stable.quiet holds₂ quiet₃)
  have here : HoldsAt J A parent w₂ := ⟨holds₂, grows.enters ⟨p, way⟩⟩
  have here₃ := here.quiet grows.stable quiet₃
  refine sure.bind (inner_wp (fun found w₄ quiet₄ _ => ?_) fun _ w₄ quiet₄ =>
    grows.stable.quiet here₃.1 quiet₄)
  have here₄ := here₃.quiet grows.stable quiet₄
  match found with
  | none => exact here₄.1
  | some entry =>
      refine sure.bind ((addNode_wp grows here₄ name entry).mono fun out w₅ here₅ => ?_)
      cases out with
      | ok id => exact here₅.1
      | error e => exact here₅.1

/-- A create-like callback: what the filesystem makes gets a node. -/
theorem make_keeps (grows : Grows ok J A) (parent : NodeId) (call : PathNodeRef P → InnerCall P)
    {f : ∀ ref, (call ref).Val → Body P O Exit α}
    (adds : ∀ ref v w, HoldsAt J A parent w →
      (f ref v).sure (callbacks ok O) (Diverges (Ending J)) (fun _ w' => HoldsAt J A parent w') w) :
    KeepsTo ok J (changeIn parent fun ref => inner (call ref) >>= f ref) := by
  intro w holds
  refine changeIn_wp grows.stable holds fun ref w₁ holds₁ placed => ?_
  have here : HoldsAt J A parent w₁ := ⟨holds₁, grows.enters placed⟩
  refine sure.bind (inner_wp (fun v w₂ quiet _ => ?_) fun _ w₂ quiet => grows.stable.quiet holds₁ quiet)
  exact (adds ref v w₂ (here.quiet grows.stable quiet)).mono fun _ _ here => here.1

/-! ## Directory reads -/

theorem replayed_wp (stable : Stable J) (holds : HoldsAt J A this w) (dir : PathNodeRef P)
    (stale plus : Bool) (caller : Caller) (listed : DirEntry P.NodeState) :
    (replayed dir stale plus caller listed).sure (callbacks ok O) (Diverges (Ending J))
      (fun _ w' => HoldsAt J A this w') w := by
  unfold replayed
  cases listed.identity with
  | current => exact holds
  | parent => exact holds
  | child state =>
      dsimp only
      split
      · refine ext_wp rfl fun r w₁ quiet _ => ?_
        have holds₁ := holds.quiet stable quiet
        match r with
        | none => exact holds₁
        | some (.ok none) => exact holds₁
        | some (.ok (some found)) => exact holds₁
        | some (.error e) => exact holds₁
      · exact holds

theorem replayFrom_wp {generation : Nat}
    {current : DirEntry P.NodeState → Body P O Exit (Replayed P.NodeState)}
    {emit : DirEntry P.NodeState → Nat → Body P O Exit Bool}
    (looks : ∀ e w, HoldsAt J A this w →
      (current e).sure (callbacks ok O) (Diverges (Ending J)) (fun _ w' => HoldsAt J A this w') w)
    (emits : ∀ e next w, HoldsAt J A this w →
      (emit e next).sure (callbacks ok O) (Diverges (Ending J)) (fun _ w' => HoldsAt J A this w') w)
    (entries : List (DirEntry P.NodeState)) (index accepted : Nat) (holds : HoldsAt J A this w) :
    (replayFrom generation current emit entries index accepted).sure (callbacks ok O) (Diverges (Ending J))
      (fun _ w' => HoldsAt J A this w') w := by
  induction entries generalizing index accepted w with
  | nil => exact holds
  | cons listed entries ih =>
      refine sure.bind ((looks listed w holds).mono fun out w₁ holds₁ => ?_)
      match out with
      | .error e => exact holds₁
      | .ok .skip => exact ih _ _ holds₁
      | .ok (.failed e) => exact holds₁
      | .ok (.send entry) =>
          refine sure.bind ((emits entry _ w₁ holds₁).mono fun out w₂ holds₂ => ?_)
          match out with
          | .error e => exact holds₂
          | .ok true => exact ih _ _ holds₂
          | .ok false => exact holds₂

theorem replayListing_wp (grows : Grows ok J A) (holds : HoldsAt J A this w) {dir : PathNode P}
    {path : Path} {listing : DirListing P.NodeState} {start : Nat} {plus : Bool} {caller : Caller}
    {emit : DirEntry P.NodeState → Nat → Body P O Exit Bool}
    (emits : ∀ e next w, HoldsAt J A this w →
      (emit e next).sure (callbacks ok O) (Diverges (Ending J)) (fun _ w' => HoldsAt J A this w') w) :
    (replayListing dir path listing start plus caller emit).sure (callbacks ok O) (Diverges (Ending J))
      (fun _ w' => HoldsAt J A this w') w := by
  refine ext_wp rfl fun epoch w₁ quiet _ => sure.bind ((replayFrom_wp ?_ emits _ _ _
    (holds.quiet grows.stable quiet)).mono fun out w₂ holds₂ => ?_)
  · exact fun e w holds => replayed_wp grows.stable holds _ _ _ _ e
  · match out with
    | .error e => exact holds₂
    | .ok (0, some e) => exact holds₂
    | .ok (0, none) => exact holds₂
    | .ok (n + 1, none) => exact holds₂
    | .ok (n + 1, some e) => exact holds₂

theorem directoryListing_wp (stable : Stable J) (holds : HoldsAt J A this w) (dir : PathNode P)
    (path : Path) (handle : PathDirHandle P) (offset : Nat) (caller : Caller) :
    (directoryListing dir path handle offset caller).sure (callbacks ok O) (Diverges (Ending J))
      (fun _ w' => HoldsAt J A this w') w := by
  have refresh : ∀ w, HoldsAt J A this w → ∀ start : Nat,
      Prog.sure (callbacks ok O) (Diverges (Ending J)) (.op (.cx (.ext (.entriesEpoch dir.key))) fun epoch =>
        inner (.listDir ⟨some path, dir⟩ handle.inner caller) >>= fun buffer =>
          if maxListingLen < buffer.entries.length then .exit (.errno .EOVERFLOW)
          else .op (.cx (.ext (.push handle.listings epoch buffer))) fun listing =>
            .ret (DirRead.listing listing start true))
        (fun (_ : Except Exit (DirRead P.NodeState)) w' => HoldsAt J A this w') w := by
    intro w holds start
    refine ext_wp rfl fun epoch w₁ quiet₁ _ => sure.bind (inner_wp (fun buffer w₂ quiet₂ _ => ?_)
      fun _ w₂ quiet₂ => holds.quiet stable (quiet₁.trans quiet₂))
    show Prog.sure _ _ (if _ then _ else _) _ _
    split
    · exact holds.quiet stable (quiet₁.trans quiet₂)
    · exact ext_wp rfl fun _ w₃ quiet₃ _ =>
        holds.quiet stable ((quiet₁.trans quiet₂).trans quiet₃)
  unfold directoryListing
  dsimp only
  split
  · exact refresh w holds _
  · refine ext_wp rfl fun r w₁ quiet _ => ?_
    match r with
    | some read => exact holds.quiet stable quiet
    | none => exact refresh w₁ (holds.quiet stable quiet) _

/-- A directory read of the node that `this` denotes. -/
theorem readDirectory_wp (grows : Grows ok J A) (holds : Holds J w) {node : PathNode P}
    (keyed : w.ext.ns.keys[node.key]? = some this) (handle : PathDirHandle P) (offset : Nat)
    (plus : Bool) (caller : Caller) (offer : DirEntry P.NodeState → NodeId → Nat → Option O) :
    (readDirectory node this parent handle offset plus caller offer).sure (callbacks ok O) (Diverges (Ending J))
      (fun _ w' => Holds J w') w := by
  refine withRead_wp grows.stable.closed fun w₁ quiet₁ =>
    sure.bind (nodePath_wp (·.holds (grows.stable.quiet holds quiet₁))
      fun path w₂ quiet₂ way => ?_)
  have holds₂ := grows.stable.quiet holds (quiet₁.trans quiet₂)
  match path with
  | none => exact holds₂
  | some p =>
      obtain ⟨id, keyed', way⟩ := way p rfl
      rw [quiet₁.names, keyed] at keyed'
      cases keyed'
      have here : HoldsAt J A this w₂ :=
        ⟨holds₂, by rw [quiet₂.names]; exact grows.enters ⟨p, way⟩⟩
      refine sure.bind ((directoryListing_wp grows.stable here node p handle offset caller).mono
        fun out w₃ here₃ => ?_)
      match out with
      | .error e => exact here₃.1
      | .ok .ended => exact here₃.1
      | .ok (.listing listing start owned) =>
          refine sure.bind ((replayListing_wp grows here₃ fun e next w here =>
            addListedEntry_wp grows here e fun id w => ?_).mono fun out w₄ here₄ => ?_)
          · cases offer e id next with
            | none => exact .refl w
            | some o =>
                refine ⟨not_false, fun took w' quiet => ?_⟩
                match took with
                | none => exact quiet
                | some took => exact quiet
          · match out with
            | .error e => exact here₄.1
            | .ok accepted =>
                show Prog.sure _ _ (if _ then _ else _) _ _
                split
                · exact ext_wp rfl fun _ w₅ quiet _ => grows.stable.quiet here₄.1 quiet
                · exact here₄.1

end Discovery

/-! ## Names changed on purpose -/

section Edits

variable {ok : Allowed F} {strict : Prop} {I : Sight P} {w : PathWorld F}
  {parent newparent id : NodeId}
  {name newname : OsStr} {caller : Caller}

theorem inner_quiet (c : InnerCall P) (w : PathWorld F) :
    (inner (O := O) c).sure (callbacks ok O) (Diverges strict) (fun _ w' => Quiet w w') w :=
  inner_wp (fun _ _ quiet _ => quiet) fun _ _ quiet => quiet

theorem removeEntry_wp {call : PathNodeRef P → Body P O Exit Unit}
    (calls : ∀ ref w, (call ref).sure (callbacks ok O) (Diverges strict) (fun _ w' => Quiet w w') w)
    {Q : Except Exit Unit → PathWorld F → Prop} (stable : Stable I) (ends : strict → Ending I)
    (closed : Closed Q) (holds : Holds I w) (fails : ∀ e w', Holds I w' → Q (.error e) w')
    (unknown : ∀ w', Holds I w' → w'.ext.ns.byName[Dentry.mk parent name]? = none → Q (.ok ()) w')
    (removes : ∀ id (w₁ w' : PathWorld F), Holds I w₁ →
      w₁.ext.ns.byName[Dentry.mk parent name]? = some id → w₁.table.Tidy →
      Permits ok w₁ (.removeLink id) () → w'.table = w₁.table.removeLink id →
      w'.ext.ns = (w₁.ext.ns.remove ⟨parent, name⟩).2 → Q (.ok ()) w') :
    (removeEntry parent name call).sure (callbacks ok O) (Diverges strict) Q w := by
  refine withWrite_wp closed fun w₁ quiet₁ => withNode_wp closed
    (fun _ _ quiet => fails _ _ (stable.quiet holds (quiet₁.trans quiet))) fun node w₂ quiet₂ _ => ?_
  refine ext_wp rfl fun _ w₃ quiet₃ _ => ?_
  have holds₃ := stable.quiet holds ((quiet₁.trans quiet₂).trans quiet₃)
  refine sure.bind (path_wp (fun s => (ends s).holds holds₃) (fun p w₄ quiet₄ way => ?_)
    fun _ w₄ quiet₄ => ?_)
  · have holds₄ := stable.quiet holds₃ quiet₄
    refine sure.bind ((calls _ w₄).mono fun out w₅ quiet₅ => ?_)
    have holds₅ := stable.quiet holds₄ quiet₅
    cases out with
    | error e => exact fails _ w₅ holds₅
    | ok _ => ?_
    refine removeDentry_wp (fun w₆ quiet₆ missing => ?_) fun id w₆ known tidy permits => ?_
    · refine unknown w₆ (stable.quiet holds₅ quiet₆) ?_
      rw [quiet₆.names]
      exact missing
    · exact removes id w₅ w₆ holds₅ known tidy permits
  · exact fails _ w₄ (stable.quiet holds₃ quiet₄)

/-- The filesystem was allowed to rename in a world with the names of `w`. -/
def RenamePermitted (ok : Allowed F) (w : PathWorld F) (old new : Dentry) : Prop :=
  ∃ (w₀ : PathWorld F) (source dir : PathNodeRef P) (caller : Caller),
    w₀.ext.ns = w.ext.ns ∧ w₀.ext.ns.keys[source.node.key]? = some old.parent ∧
    w₀.ext.ns.keys[dir.node.key]? = some new.parent ∧
    ok w₀ (.cx (.ext (.inner (.rename source old.name dir new.name caller)))) (some (.ok ()))

theorem rename_wp {Q : Except Exit Unit → PathWorld F → Prop} (stable : Stable I)
    (ends : strict → Ending I)
    (keyed : ∀ {t ns id} {slot : Slot (PathNode P)}, I t ns → t.map[id]? = some slot →
      ns.keys[slot.record.payload.key]? = some id) (closed : Closed Q)
    (holds : Holds I w) (fails : ∀ e w', Holds I w' → Q (.error e) w')
    (nothing : ∀ w', Holds I w' →
      w'.ext.ns.rename ⟨parent, name⟩ ⟨newparent, newname⟩ = none → Q (.ok ()) w')
    (moves : ∀ replaced source ns (w₁ w' : PathWorld F), Holds I w₁ →
      w₁.ext.ns.rename ⟨parent, name⟩ ⟨newparent, newname⟩ = some (replaced, source, ns) →
      w₁.ext.ns.Placed newparent → RenamePermitted ok w₁ ⟨parent, name⟩ ⟨newparent, newname⟩ →
      w₁.table.Tidy → (∀ id, replaced = some id → Permits ok w₁ (.removeLink id) ()) →
      PutsBack ok ns → w'.table = (replaced.elim w₁.table w₁.table.removeLink).reparent source newparent →
      w'.ext.ns = ns → Q (.ok ()) w') (flags : Nat) :
    (PathNodeFs.rename (P := P) (O := O) parent name newparent newname flags caller).sure
      (callbacks ok O) (Diverges strict) Q w := by
  unfold PathNodeFs.rename
  split
  · exact fails _ w holds
  refine withWrite_wp closed fun w₁ quiet₁ => withNode_wp closed
    (fun _ _ quiet => fails _ _ (stable.quiet holds (quiet₁.trans quiet)))
    fun node w₂ quiet₂ found => ?_
  have holds₂ := stable.quiet holds (quiet₁.trans quiet₂)
  obtain ⟨slot, live, payload⟩ := found
  have oldKey := keyed holds₂ live
  rw [payload] at oldKey
  refine withNode_wp closed (fun _ _ quiet => fails _ _ (stable.quiet holds₂ quiet))
    fun newNode w₃ quiet₃ found => ?_
  obtain ⟨slot, live, payload⟩ := found
  have newKey := keyed (stable.quiet holds₂ quiet₃) live
  rw [payload] at newKey
  refine ext_wp rfl fun _ w₄ quiet₄ _ => ext_wp rfl fun _ w₅ quiet₅ _ => ?_
  have quiet₅ := quiet₄.trans quiet₅
  have holds₅ := stable.quiet holds₂ (quiet₃.trans quiet₅)
  refine sure.bind (path_wp (fun s => (ends s).holds holds₅) (fun _ w₆ quiet₆ _ => ?_)
    fun _ _ quiet => fails _ _ (stable.quiet holds₅ quiet))
  have holds₆ := stable.quiet holds₅ quiet₆
  refine sure.bind (path_wp (fun s => (ends s).holds holds₆) (fun p w₇ quiet₇ way => ?_)
    fun _ _ quiet => fails _ _ (stable.quiet holds₆ quiet))
  have holds₇ := stable.quiet holds₆ quiet₇
  refine sure.bind (inner_wp (fun _ w₈ quiet₈ allowed => ?_)
    fun _ _ quiet => fails _ _ (stable.quiet holds₇ quiet))
  have holds₈ := stable.quiet holds₇ quiet₈
  have placed : w₈.ext.ns.Placed newparent := by
    rw [quiet₈.names, quiet₇.names]
    exact ⟨p, way⟩
  have names₇ : w₇.ext.ns = w₃.ext.ns := ((quiet₅.trans quiet₆).trans quiet₇).names
  have permitted : RenamePermitted ok w₈ ⟨parent, name⟩ ⟨newparent, newname⟩ := by
    refine ⟨w₇, _, _, _, quiet₈.names.symm, ?_, ?_, allowed⟩
    · rw [names₇, quiet₃.names]
      exact oldKey
    · rw [names₇]
      exact newKey
  refine renameDentry_wp (fun w₉ quiet₉ same => ?_)
    fun replaced source ns w₉ renamed tidy permits back table names => ?_
  · refine nothing w₉ (stable.quiet holds₈ quiet₉) ?_
    rw [quiet₉.names]
    exact same
  · exact moves replaced source ns w₈ w₉ holds₈ renamed placed permitted tidy permits back table
      names

/-- The filesystem was allowed to link under this name in a world with the names of `w`. -/
def LinkPermitted (ok : Allowed F) (w : PathWorld F) (newparent : NodeId) (newname : OsStr) : Prop :=
  ∃ (w₀ : PathWorld F) (source dir : PathNodeRef P) (caller : Caller) (attr : NodeAttr),
    w₀.ext.ns = w.ext.ns ∧ w₀.ext.ns.keys[dir.node.key]? = some newparent ∧
    ok w₀ (.cx (.ext (.inner (.link source dir newname caller)))) (some (.ok attr))

theorem link_wp {Q : Except Exit NodeId → PathWorld F → Prop} (stable : Stable I)
    (ends : strict → Ending I)
    (keyed : ∀ {t ns id} {slot : Slot (PathNode P)}, I t ns → t.map[id]? = some slot →
      ns.keys[slot.record.payload.key]? = some id) (closed : Closed Q)
    (holds : Holds I w) (fails : ∀ e w', Holds I w' → Q (.error e) w')
    (links : ∀ w₁ w' : PathWorld F, Holds I w₁ → w₁.ext.ns.Placed id →
      w₁.ext.ns.Placed newparent → LinkPermitted ok w₁ newparent newname →
      PutsBack ok (w₁.ext.ns.addAlias id ⟨newparent, newname⟩) →
      w₁.table.addLink id = (some (), w'.table) →
      w'.ext.ns = w₁.ext.ns.addAlias id ⟨newparent, newname⟩ → Q (.ok id) w')
    (full : ∀ w₀ w₁ w' : PathWorld F, ok w₀ (.cx (.addLink id)) none → Holds I w₁ →
      w₁.ext.ns.Placed newparent → PutsBack ok (w₁.ext.ns.addAlias id ⟨newparent, newname⟩) →
      w₁.table.addLink id = (none, w'.table) →
      w'.ext.ns = w₁.ext.ns.addAlias id ⟨newparent, newname⟩ → Q (.error .panic) w') :
    (PathNodeFs.link (P := P) (O := O) id newparent newname caller).sure (callbacks ok O) (Diverges strict) Q w := by
  refine withWrite_wp closed fun w₁ quiet₁ => withNode_wp closed
    (fun _ _ quiet => fails _ _ (stable.quiet holds (quiet₁.trans quiet))) fun node w₂ quiet₂ _ => ?_
  have holds₂ := stable.quiet holds (quiet₁.trans quiet₂)
  refine withNode_wp closed (fun _ _ quiet => fails _ _ (stable.quiet holds₂ quiet))
    fun newNode w₃ quiet₃ found => ?_
  obtain ⟨slot, live, payload⟩ := found
  have key := keyed (stable.quiet holds₂ quiet₃) live
  rw [payload] at key
  refine ext_wp rfl fun _ w₄ quiet₄ _ => ?_
  have holds₄ := stable.quiet holds₂ (quiet₃.trans quiet₄)
  refine sure.bind (path_wp (fun s => (ends s).holds holds₄) (fun p₅ w₅ quiet₅ way₅ => ?_)
    fun _ _ quiet => fails _ _ (stable.quiet holds₄ quiet))
  have holds₅ := stable.quiet holds₄ quiet₅
  refine sure.bind (path_wp (fun s => (ends s).holds holds₅) (fun p₆ w₆ quiet₆ way₆ => ?_)
    fun _ _ quiet => fails _ _ (stable.quiet holds₅ quiet))
  have holds₆ := stable.quiet holds₅ quiet₆
  refine sure.bind (inner_wp (fun attr w₇ quiet₇ allowed => ?_)
    fun _ _ quiet => fails _ _ (stable.quiet holds₆ quiet))
  have holds₇ := stable.quiet holds₆ quiet₇
  have placed : w₇.ext.ns.Placed newparent := by
    rw [quiet₇.names, quiet₆.names]
    exact ⟨p₆, way₆⟩
  refine addAlias_wp (fun w₈ back overflow added names => ?_) fun w₈ back added names => ?_
  · obtain ⟨w₀, overflow⟩ := overflow
    exact full w₀ w₇ w₈ overflow holds₇ placed back added names
  · refine links w₇ w₈ holds₇ ?_ placed ⟨w₆, _, _, _, attr, quiet₇.names.symm, ?_, allowed⟩ back
      added names
    · rw [quiet₇.names, quiet₆.names, quiet₅.names]
      exact ⟨p₅, way₅⟩
    · rw [quiet₆.names, quiet₅.names, quiet₄.names]
      exact key

end Edits

end TypedFuse
