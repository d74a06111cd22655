import TypedFuse.Runtime.Safety

/-!
# Lifetime accounting

Requests run one after another on a runtime, with arbitrary callbacks.  Between them the counts of
every slot are what the history says: `lookups` are the entries handed out and not forgotten,
`opens` the handles listed, `leases` the references callbacks still hold, and a slot is there
exactly while one of its counts is not zero (`lifetime_accounting`).
-/

namespace TypedFuse

open Std Prog NodeTable

variable {K : FsTypes} {X : Machine K.Ext} {σ : Type}

/-! ## What a history hands out -/

/-- An entry that counts a lookup: any but `.` and `..`. -/
def PlusEntry.counts (e : PlusEntry) : Bool := e.name != OsStr.dot && e.name != OsStr.dotDot

/-- The entries of a page that count a lookup each. -/
def countedInos (page : List PlusEntry) : Multiset NodeId :=
  ((page.filter PlusEntry.counts).map fun e => e.entry.ino : List NodeId)

theorem countedInos_snoc (page : List PlusEntry) (e : PlusEntry) :
    countedInos (page ++ [e]) = countedInos page + if e.counts then {e.entry.ino} else 0 := by
  unfold countedInos
  rw [List.filter_append, List.map_append, ← Multiset.coe_add]
  congr 1
  cases counts : e.counts <;> simp [counts]

/-- The inodes of the entries in a reply, one for each entry that counts a lookup. -/
def Reply.handedOut : Reply → Multiset NodeId
  | .lookup (.found e) => {e.ino}
  | .entry e => {e.ino}
  | .created e _ => {e.ino}
  | .plusPage _ entries => countedInos entries
  | _ => 0

/-- A request that has run, and how it ended. -/
structure Event where
  request : Request
  outcome : Except Exit Reply

def Event.handedOut (e : Event) : Multiset NodeId :=
  match e.outcome with
  | .ok reply => reply.handedOut
  | .error _ => 0

def handedOut (h : List Event) : Multiset NodeId := (h.map Event.handedOut).sum

def forgotten (h : List Event) : Multiset NodeId := (h.map fun e => e.request.forgets).sum

/-! ## Histories -/

/-- The worlds `Runtime::new` can leave: `populate` is a callback like any other. -/
def Started (X : Machine K.Ext) (root : K.Node) (x : X.State) (w : World K X.State) : Prop :=
  ∃ populate : TotalCallback K Unit,
    (Runtime.call populate).Exec (calm X) (World.new root x) (.ok ()) w

/-- Requests run one after another from `w₀`, each on a filesystem that behaves as it likes, and
nobody forgets more than was handed out. -/
inductive History (X : Machine K.Ext) (w₀ : World K X.State) :
    List Event → World K X.State → Prop
  | start : History X w₀ [] w₀
  | request {h : List Event} {w w' : World K X.State} (fs : NodeFs K) (q : Request)
      (out : Except Exit Reply) :
    History X w₀ h w → (q.run fs).Exec (calm X) w out w' → out ≠ .error .panic →
    q.forgets + forgotten h ≤ handedOut h →
    History X w₀ (h ++ [⟨q, out⟩]) w'

/-! ## Accepted entries -/

/-- Alone, the wrapped sink records the entries that the inner one takes. -/
theorem accounting_yields (ino : Nat) (offer : PlusOffer)
    (s : Runtime.Accounting (List PlusEntry))
    (same : (s.accepted : Multiset NodeId) = countedInos s.inner) :
    (Runtime.Accounting.add (plusPageSink (K := K) ino) offer s).Yields (calm X) fun r =>
      (r.2.accepted : Multiset NodeId) = countedInos r.2.inner := by
  intro w
  have yields : ∀ {r : Option Bool × Runtime.Accounting (List PlusEntry)},
      (r.2.accepted : Multiset NodeId) = countedInos r.2.inner →
      ∀ a, (Except.ok r : Except Exit _) = .ok a →
        (a.2.accepted : Multiset NodeId) = countedInos a.2.inner := by
    intro r h a ok
    cases ok
    exact h
  rintro r w' ⟨⟨rfl, rfl⟩, -⟩
  cases gen : w'.table.generationOf offer.id with
  | none => exact yields same
  | some generation =>
      rintro took w'' ⟨rfl, -⟩
      cases took with
      | false => exact yields same
      | true =>
          have page : countedInos (s.inner ++ [⟨offer.name, ⟨offer.id, generation, offer.attr⟩,
              offer.nextOffset⟩]) = countedInos s.inner +
              (if offer.name ≠ OsStr.dot ∧ offer.name ≠ OsStr.dotDot then {offer.id} else 0) := by
            rw [countedInos_snoc]
            simp [PlusEntry.counts]
          show Prog.wp _ (if _ then _ else _) _ _
          split
          · rename_i counts
            rintro r w'' ⟨⟨rfl, rfl⟩, calm⟩
            have live : ∃ slot, w''.table.map[offer.id]? = some slot :=
              (Option.map_eq_some_iff.mp gen).imp fun _ h => h.1
            obtain ⟨slot, live⟩ := live
            rcases retainLookup_cases w''.table offer.id with ⟨dead, -⟩ | eq | ⟨slot', -, eq⟩
            · rw [dead] at live
              cases live
            · exact absurd (by rw [eq]; rfl) calm
            · rw [eq]
              refine yields ?_
              simp only [↓reduceIte]
              rw [page, if_pos counts, ← Multiset.coe_add, same]
              rfl
          · rename_i counts
            refine yields ?_
            simp only [↓reduceIte]
            rw [page, if_neg counts, add_zero, same]

/-- Alone, a `readdirplus` retains exactly the entries its page has. -/
theorem readdirplus_yields (fs : NodeFs K) (ino fh : Nat) (caller : Caller) (offset : Nat) :
    (Runtime.readdirplus fs ino fh caller (plusPageSink ino) [] offset).Yields (calm X) fun r =>
      (r.1 : Multiset NodeId) = countedInos r.2 := by
  refine Yields.bind (yields_true _) fun ref _ => Yields.andFinally fun w r w' _ => ?_
  match r with
  | none => exact fun a ok => nomatch ok
  | some parent =>
      refine Yields.bind (yields_true _) (fun h _ => Yields.andFinally ?_) w'
      refine Yields.bind (Yields.interpState (J := fun s : Runtime.Accounting (List PlusEntry) =>
        (s.accepted : Multiset NodeId) = countedInos s.inner) ?_ rfl) fun out same => ?_
      · intro o s same
        cases o with
        | cx o =>
            intro w r w' _ a ok
            cases ok
            exact same
        | offer e => exact accounting_yields ino e s same
      · match out with
        | (.ok (), s) =>
            intro w a ok
            cases ok
            exact same
        | (.error (.errno e), s) =>
            exact Yields.bind (yields_true _) fun _ _ _ a ok => nomatch ok
        | (.error .panic, s) => exact fun _ a ok => nomatch ok

theorem Request.yields (fs : NodeFs K) (q : Request) :
    (q.run fs).Yields (calm X) fun reply => reply.retained = reply.handedOut := by
  have other : ∀ {α : Type} {p : Action K α} {f : α → Reply},
      (∀ a, (f a).retained = (f a).handedOut) →
      (p >>= fun a => .ret (f a)).Yields (calm X) fun reply => reply.retained = reply.handedOut := by
    intro α p f same
    refine Yields.bind (yields_true p) fun a _ w reply ok => ?_
    cases ok
    exact same a
  cases q with
  | readdirplus ino fh offset caller =>
      refine Yields.bind (readdirplus_yields fs ino fh caller offset) fun r same w reply ok => ?_
      cases ok
      exact same
  | lookup parent name caller => exact other fun r => by cases r <;> rfl
  | _ => exact other fun _ => rfl

/-! ## The accounts -/

/-- The number of listed records bound to `ino`. -/
def Handles.boundTo {P : Type} (h : Handles P) (ino : Nat) : Nat :=
  h.listed.toList.countP fun fh => h.find fh = some ino

theorem Handles.nodes_count {P : Type} (h : Handles P) (ino : Nat) :
    h.nodes.count ino = h.boundTo ino := by
  unfold Handles.nodes Handles.boundTo
  rw [Multiset.filterMap_coe, Multiset.coe_count, List.count_filterMap]
  refine List.countP_congr fun fh mem => ?_
  have listed : fh ∈ h.listed := by simpa using mem
  simp [Handles.find, listed]

/-- What holds between requests: the lookups in circulation are those handed out and not
forgotten, and nothing else is. -/
structure Settled (w : World K X.State) (h : List Event) (lookups : Multiset NodeId) : Prop where
  inv : World.Inv True w (.looked lookups)
  balance : lookups + forgotten h = handedOut h

theorem Settled.request {w w' : World K X.State} {h : List Event} {lookups : Multiset NodeId}
    {fs : NodeFs K} {q : Request} {out : Except Exit Reply} (settled : Settled w h lookups)
    (run : (q.run fs).Exec (calm X) w out w') (done : out ≠ .error .panic)
    (covered : q.forgets + forgotten h ≤ handedOut h) :
    ∃ lookups', Settled w' (h ++ [⟨q, out⟩]) lookups' := by
  rw [← settled.balance, Multiset.add_le_add_iff_right] at covered
  obtain ⟨rest, rfl⟩ := Multiset.le_iff_exists_add.mp covered
  have owns : Holdings.looked (q.forgets + rest) = .looked q.forgets + .looked rest := by
    ext1 <;> simp [Holdings.looked]
  have inv : World.Inv True w (.looked q.forgets + .looked rest) := owns ▸ settled.inv
  obtain ⟨T', ends, inv'⟩ := Safe.exec (Request.safe fs q) inv run.of_without
  refine ⟨Event.handedOut ⟨q, out⟩ + rest, ?_, ?_⟩
  · cases out with
    | ok reply =>
        have same := (Request.yields fs q w).exec run reply rfl
        cases ends
        refine (congrArg (World.Inv True w') ?_).mp inv'
        ext1 <;> simp [Holdings.looked, Event.handedOut, same]
    | error e =>
        cases e with
        | errno e =>
            cases ends trivial
            rw [zero_add] at inv'
            exact (zero_add rest).symm ▸ inv'
        | panic => exact absurd rfl done
  · have balance := settled.balance
    simp only [handedOut, forgotten, List.map_append, List.sum_append, List.map_cons, List.map_nil,
      List.sum_cons, List.sum_nil, add_zero] at balance ⊢
    rw [← balance]
    ac_rfl

theorem new_inv (root : K.Node) (x : X.State) : World.Inv True (World.new root x) 0 where
  held := by
    have nodes : (Handles.new : Handles K.Handle).nodes + (Handles.new : Handles K.DirHandle).nodes
        = 0 := by simp [Handles.nodes, Handles.new]
    show (NodeTable.withRoot root).Held (0 + 0) (0 + (Handles.nodes .new + Handles.nodes .new))
    rw [nodes]
    exact withRoot_held root
  numbered := ⟨_, withRoot_numbered root⟩
  files := Handles.new_sound
  dirs := Handles.new_sound
  apart fh r record := by simp [World.new, HandleTable.new, Handles.new]
  counted _ := by
    constructor
    · intro ino slot live
      simp only [World.new, withRoot_map] at live
      split at live
      · cases live
        rfl
      · cases live
    · exact fun ino mem => absurd mem (Multiset.notMem_zero ino)

theorem History.settled {root : K.Node} {x : X.State} {w₀ w : World K X.State} {h : List Event}
    (started : Started X root x w₀) (hist : History X w₀ h w) :
    ∃ lookups, Settled w h lookups := by
  induction hist with
  | start =>
      obtain ⟨populate, run⟩ := started
      have inv : World.Inv True (World.new root x) (0 + 0) := new_inv root x
      obtain ⟨T', rfl, inv'⟩ := Safe.exec (G := protocol X True) (Runtime.call_safe populate) inv
        run.of_without
      exact ⟨0, inv', rfl⟩
  | request fs q out _ run done covered ih =>
      obtain ⟨lookups, settled⟩ := ih
      exact settled.request run done covered

/-- Between requests every count of an inode is what the history of the requests says, and its
slot is there if and only if one of them is not zero. -/
theorem lifetime_accounting {root : K.Node} {x : X.State} {w₀ w : World K X.State}
    {h : List Event} (started : Started X root x w₀) (hist : History X w₀ h w) (ino : Nat) :
    (∀ slot : Slot K.Node, w.table.map[ino]? = some slot →
      slot.lookups = (handedOut h).count ino - (forgotten h).count ino ∧
      slot.opens = w.handles.files.boundTo ino + w.handles.dirs.boundTo ino ∧
      slot.leases = leasesAt w.kept ino) ∧
    ((∃ slot : Slot K.Node, w.table.map[ino]? = some slot) ↔
      (∃ slot : Slot K.Node, w.table.map[ino]? = some slot ∧ slot.links ≠ 0) ∨
      (handedOut h).count ino - (forgotten h).count ino ≠ 0 ∨
      w.handles.files.boundTo ino + w.handles.dirs.boundTo ino ≠ 0 ∨
      leasesAt w.kept ino ≠ 0) := by
  obtain ⟨lookups, inv, balance⟩ := hist.settled started
  have held := inv.held
  simp only [Holdings.looked, zero_add] at held
  have counted := inv.counted trivial
  have lookups_eq : lookups.count ino = (handedOut h).count ino - (forgotten h).count ino := by
    rw [← balance, Multiset.count_add]
    omega
  have opens_eq : (w.handles.files.nodes + w.handles.dirs.nodes).count ino =
      w.handles.files.boundTo ino + w.handles.dirs.boundTo ino := by
    rw [Multiset.count_add, Handles.nodes_count, Handles.nodes_count]
  have counts : ∀ slot : Slot K.Node, w.table.map[ino]? = some slot →
      slot.lookups = (handedOut h).count ino - (forgotten h).count ino ∧
      slot.opens = w.handles.files.boundTo ino + w.handles.dirs.boundTo ino ∧
      slot.leases = leasesAt w.kept ino := fun slot live =>
    ⟨(counted.count ino slot live).trans lookups_eq, (held.opens ino slot live).trans opens_eq,
      held.leases ino slot live⟩
  refine ⟨counts, ?_, ?_⟩
  · rintro ⟨slot, live⟩
    obtain ⟨lookups, opens, leases⟩ := counts slot live
    rcases Slot.held_iff.mp (held.tidy ino slot live) with h | h | h | h
    · exact .inl ⟨slot, live, h⟩
    · exact .inr (.inl (lookups ▸ h))
    · exact .inr (.inr (.inl (opens ▸ h)))
    · exact .inr (.inr (.inr (leases ▸ h)))
  · rintro (⟨slot, live, -⟩ | some | some | some)
    · exact ⟨slot, live⟩
    · rw [← lookups_eq] at some
      exact counted.live ino (Multiset.count_pos.mp (Nat.pos_of_ne_zero some))
    · rw [← opens_eq] at some
      exact held.opened ino (Multiset.count_pos.mp (Nat.pos_of_ne_zero some))
    · obtain ⟨r, mem, rfl⟩ := Multiset.countP_pos.mp (Nat.pos_of_ne_zero some)
      obtain ⟨slot, live, -⟩ := held.refs r mem
      exact ⟨slot, live⟩

/-! ## A filesystem without state of its own -/

def plainTypes : FsTypes where
  Node := Unit
  Handle := Unit
  DirHandle := Unit
  Ext := ⟨Empty, fun e => nomatch e⟩

def plainMachine : Machine plainTypes.Ext := ⟨Unit, fun e => nomatch e⟩

def plainExec (e : plainTypes.Ext.Op) (_ : Unit) : Option (plainTypes.Ext.Res e × Unit) := nomatch e

/-- Every lookup finds a new node. -/
def plainFs : NodeFs plainTypes where
  getattr _ _ _ := .ret ⟨.regularFile, 0, 1⟩
  lookup parent _ _ := .op (.cx (.insert () parent)) fun
    | none => .exit .panic
    | some id => .ret (some id)

def plainWorld : World plainTypes Unit := World.new () ()

/-- The world after a lookup. -/
def plainLooked : World plainTypes Unit :=
  (((Request.lookup 1 [97] ⟨0, 0, 0, 0⟩).run plainFs).play (World.calmExec plainExec true)
    plainWorld).elim plainWorld Prod.snd

theorem plainLooked_history : History plainMachine plainWorld
    [⟨.lookup 1 [97] ⟨0, 0, 0, 0⟩, .ok (.lookup (.found ⟨2, 0, ⟨.regularFile, 0, 1⟩⟩))⟩]
    plainLooked :=
  .request plainFs _ _ .start
    (play_exec (M := calm plainMachine)
      (World.calmExec_step (X := plainMachine) plainExec true fun e => nomatch e) rfl)
    (by simp) (Multiset.zero_le _)

/-- The node found has the one lookup that was handed out. -/
theorem plainLooked_lifetime_accounting : ∃ slot, plainLooked.table.map[2]? = some slot ∧
    slot.lookups = 1 ∧ slot.opens = 0 ∧ slot.leases = 0 := by
  have accounts := lifetime_accounting ⟨.ret (), rfl, rfl⟩ plainLooked_history 2
  have live : plainLooked.table.map[2]?.isSome = true := by decide
  obtain ⟨slot, live⟩ := Option.isSome_iff_exists.mp live
  exact ⟨slot, live, accounts.1 slot live⟩

end TypedFuse
