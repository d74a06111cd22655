import TypedFuse.Runtime.HandleSafety

/-!
# Which node a reply names

A callback returns a bare inode number, and `entry_for` and `add_open` look the number up again
later, each in a section of its own.  Nothing holds the node before the first of them, nor between
`entry_for` and `add_open` in `create` if the kernel forgets what it has not been told of yet, so
the number can be handed out again meanwhile and the reply then names another node.

`reply_names_returned_node` is that this is the only way it happens: as long as no node is inserted
under a number that a request at work was given by its callback (`Unreissued`), every reply names the
node its number denoted when the callback returned it.
-/

namespace TypedFuse

open Std Prog NodeTable

variable {K : FsTypes} {X : Machine K.Ext}

/-! ## Numbers a callback returned -/

/-- The callback of the request returned `id` after `past`, and the request goes on as the program. -/
inductive Request.Makes (fs : NodeFs K) (past : Past (rtSig K)) (id : NodeId) :
    Request → Action K Reply → Prop
  | lookup {parent : Nat} {name : OsStr} {caller : Caller} :
    After (Runtime.call (fs.lookup parent name caller)) past (.ret (some id)) →
    Makes fs past id (.lookup parent name caller)
      (Runtime.entryFor fs id caller >>= fun entry => .ret (.lookup (.found entry)))
  | mknod {parent : Nat} {name : OsStr} {mode rdev umask : Nat} {caller : Caller} :
    After (Runtime.call (fs.mknod parent name mode rdev umask caller)) past (.ret id) →
    Makes fs past id (.mknod parent name mode rdev umask caller)
      (Runtime.entryFor fs id caller >>= fun entry => .ret (.entry entry))
  | mkdir {parent : Nat} {name : OsStr} {mode umask : Nat} {caller : Caller} :
    After (Runtime.call (fs.mkdir parent name mode umask caller)) past (.ret id) →
    Makes fs past id (.mkdir parent name mode umask caller)
      (Runtime.entryFor fs id caller >>= fun entry => .ret (.entry entry))
  | symlink {parent : Nat} {name : OsStr} {target : Path} {caller : Caller} :
    After (Runtime.call (fs.symlink parent name target caller)) past (.ret id) →
    Makes fs past id (.symlink parent name target caller)
      (Runtime.entryFor fs id caller >>= fun entry => .ret (.entry entry))
  | link {ino newparent : Nat} {newname : OsStr} {caller : Caller} :
    After (Runtime.call (fs.link ino newparent newname caller)) past (.ret id) →
    Makes fs past id (.link ino newparent newname caller)
      (Runtime.entryFor fs id caller >>= fun entry => .ret (.entry entry))
  | create {parent : Nat} {name : OsStr} {mode umask flags : Nat} {caller : Caller}
      {opened : Opened K.Handle} :
    After (Runtime.call (fs.create parent name mode umask flags caller)) past (.ret (id, opened)) →
    Makes fs past id (.create parent name mode umask flags caller)
      (Runtime.entryFor fs id caller >>= fun entry => Runtime.bindFile id opened >>= fun reply =>
        .ret (.created entry reply))

/-- The entry in a reply. -/
def Reply.entryReply : Reply → Option EntryReply
  | .lookup (.found e) => some e
  | .entry e => some e
  | .created e _ => some e
  | _ => none

namespace Request

variable {fs : NodeFs K} {q : Request} {past past' : Past (rtSig K)} {id : NodeId}
  {rest p : Action K Reply} {reply : Reply} {e : EntryReply}

/-- After its callback, a request is in the program it goes on as. -/
theorem Makes.goesOn (makes : q.Makes fs past id rest)
    (after : After (q.run fs) (past ++ past') p) : After rest past' p := by
  cases makes with
  | lookup returned =>
      rw [Request.run, Runtime.lookup, bind_assoc] at after
      have after := returned.of_bind after
      dsimp only at after
      rwa [bind_assoc] at after
  | mknod returned =>
      rw [Request.run, Runtime.mknod, bind_assoc] at after
      exact returned.of_bind after
  | mkdir returned =>
      rw [Request.run, Runtime.mkdir, bind_assoc] at after
      exact returned.of_bind after
  | symlink returned =>
      rw [Request.run, Runtime.symlink, bind_assoc] at after
      exact returned.of_bind after
  | link returned =>
      rw [Request.run, Runtime.link, bind_assoc] at after
      exact returned.of_bind after
  | create returned =>
      rw [Request.run, Runtime.create, bind_assoc] at after
      have after := returned.of_bind after
      dsimp only at after
      rw [bind_assoc] at after
      simp only [bind_assoc] at after
      exact after

theorem replied {α : Type} {p : Action K α} {f : α → Reply}
    (after : After (p >>= fun a => .ret (f a)) past (.ret reply)) : ∃ a, reply = f a := by
  have after : After (p >>= fun a => .ret (f a)) past (leave (.ok reply)) := after
  rcases after.bind_inv with ⟨a, h₁, h₂, -, -, last⟩ | ⟨e, out, -⟩
  · obtain ⟨-, out⟩ := last.ret_inv
    cases out
    exact ⟨a, rfl⟩
  · cases out

/-- A request that replies with an entry had its number from its callback. -/
theorem makes_of_entry (after : After (q.run fs) past (.ret reply))
    (entry : reply.entryReply = some e) :
    ∃ past₁ past₂ id rest, past = past₁ ++ past₂ ∧ q.Makes fs past₁ id rest := by
  have plain : ∀ {α : Type} {p : Action K α} {f : α → Reply}, (∀ a, (f a).entryReply = none) →
      After (p >>= fun a => .ret (f a)) past (.ret reply) → False := by
    intro α p f none after
    obtain ⟨a, rfl⟩ := replied after
    rw [none a] at entry
    cases entry
  have called : ∀ {α : Type} {cb : Callback K α} {f : α → Action K Reply},
      After (Runtime.call cb >>= f) past (.ret reply) → ∃ a past₁ past₂, past = past₁ ++ past₂ ∧
        After (Runtime.call cb) past₁ (.ret a) ∧ After (f a) past₂ (.ret reply) := by
    intro α cb f after
    have after : After (Runtime.call cb >>= f) past (leave (.ok reply)) := after
    rcases after.bind_inv with ⟨a, past₁, past₂, eq, first, last⟩ | ⟨e, out, -⟩
    · exact ⟨a, past₁, past₂, eq, first, last⟩
    · cases out
  cases q with
  | lookup parent name caller =>
      rw [Request.run, Runtime.lookup, bind_assoc] at after
      obtain ⟨id, past₁, past₂, eq, returned, last⟩ := called after
      cases id with
      | none =>
          have last : After (.ret _) past₂ (leave (.ok reply)) := last
          obtain ⟨-, out⟩ := last.ret_inv
          cases out
          cases entry
      | some id => exact ⟨past₁, past₂, id, _, eq, .lookup returned⟩
  | mknod parent name mode rdev umask caller =>
      rw [Request.run, Runtime.mknod, bind_assoc] at after
      obtain ⟨id, past₁, past₂, eq, returned, -⟩ := called after
      exact ⟨past₁, past₂, id, _, eq, .mknod returned⟩
  | mkdir parent name mode umask caller =>
      rw [Request.run, Runtime.mkdir, bind_assoc] at after
      obtain ⟨id, past₁, past₂, eq, returned, -⟩ := called after
      exact ⟨past₁, past₂, id, _, eq, .mkdir returned⟩
  | symlink parent name target caller =>
      rw [Request.run, Runtime.symlink, bind_assoc] at after
      obtain ⟨id, past₁, past₂, eq, returned, -⟩ := called after
      exact ⟨past₁, past₂, id, _, eq, .symlink returned⟩
  | link ino newparent newname caller =>
      rw [Request.run, Runtime.link, bind_assoc] at after
      obtain ⟨id, past₁, past₂, eq, returned, -⟩ := called after
      exact ⟨past₁, past₂, id, _, eq, .link returned⟩
  | create parent name mode umask flags caller =>
      rw [Request.run, Runtime.create, bind_assoc] at after
      obtain ⟨⟨id, opened⟩, past₁, past₂, eq, returned, -⟩ := called after
      exact ⟨past₁, past₂, id, _, eq, .create returned⟩
  | _ => exact (plain (fun _ => rfl) after).elim

/-- How `entry_for` ends with an entry. -/
theorem entryFor_obeys (fs : NodeFs K) (id : NodeId) (caller : Caller) (h : Past (rtSig K)) :
    (Runtime.entryFor fs id caller).Obeys (fun _ _ => True) (fun h' out => ∀ e, out = .ok e →
      e.ino = id ∧ ⟨.retainLookup id, some (some e.generation)⟩ ∈ h') h := by
  refine Obeys.bind ⟨trivial, fun r => ?_⟩
  match r with
  | none => exact nofun
  | some none => exact nofun
  | some (some ref) =>
      refine Obeys.andFinally (Obeys.bind ((Keeps.any _ _).mono fun h₁ out _ => ?_))
      cases out with
      | error e => exact ⟨trivial, fun _ => ⟨rfl, nofun⟩⟩
      | ok attr =>
          refine ⟨trivial, fun r => ?_⟩
          match r with
          | none => exact ⟨trivial, fun _ => ⟨rfl, nofun⟩⟩
          | some none => exact ⟨trivial, fun _ => ⟨rfl, nofun⟩⟩
          | some (some generation) =>
              refine ⟨trivial, fun _ => ⟨rfl, fun e ok => ?_⟩⟩
              cases ok
              exact ⟨rfl, List.mem_append_left _ (List.mem_append_right _ List.mem_cons_self)⟩

/-- How the end of `create` binds its handle. -/
theorem bindFile_obeys (id : NodeId) (opened : Opened K.Handle) (h : Past (rtSig K)) :
    (Runtime.bindFile id opened).Obeys (fun _ _ => True) (fun h' out => ∀ reply, out = .ok reply →
      ⟨.addOpen id, some true⟩ ∈ h' ∧ ⟨.addFile id opened.handle, some reply.fh⟩ ∈ h') h := by
  refine Obeys.bind ⟨trivial, fun r => ?_⟩
  match r with
  | none => exact nofun
  | some false => exact nofun
  | some true =>
      refine ⟨trivial, fun r => ?_⟩
      match r with
      | none => exact nofun
      | some fh =>
          intro reply ok
          cases ok
          exact ⟨List.mem_append_left _ (List.mem_append_right _ List.mem_cons_self),
            List.mem_append_right _ List.mem_cons_self⟩

/-- What a request has done with its number when it replies with an entry. -/
def Named (id : NodeId) (h : Past (rtSig K)) (out : Except Exit Reply) : Prop :=
  ∀ reply e, out = .ok reply → reply.entryReply = some e → e.ino = id ∧
    ⟨.retainLookup id, some (some e.generation)⟩ ∈ h ∧
    ∀ opened, reply = .created e opened → ⟨.addOpen id, some true⟩ ∈ h ∧
      ∃ handle, ⟨.addFile id handle, some opened.fh⟩ ∈ h

theorem Makes.named (makes : q.Makes fs past id rest) :
    rest.Obeys (fun _ _ => True) (Named id) [] := by
  have replies : ∀ {f : EntryReply → Reply} (caller : Caller), (∀ e, (f e).entryReply = some e) →
      (∀ e e' opened, f e ≠ .created e' opened) →
      (Runtime.entryFor fs id caller >>= fun entry => .ret (f entry)).Obeys (fun _ _ => True)
        (Named id) [] := by
    intro f caller same uncreated
    refine Obeys.bind ((entryFor_obeys fs id caller []).mono fun h out done => ?_)
    cases out with
    | error e => exact nofun
    | ok entry =>
        intro reply e ok is
        cases ok
        rw [same] at is
        cases is
        obtain ⟨ino, retained⟩ := done entry rfl
        exact ⟨ino, retained, fun opened created => absurd created (uncreated _ _ _)⟩
  cases makes with
  | lookup returned => exact replies _ (fun _ => rfl) nofun
  | mknod returned => exact replies _ (fun _ => rfl) nofun
  | mkdir returned => exact replies _ (fun _ => rfl) nofun
  | symlink returned => exact replies _ (fun _ => rfl) nofun
  | link returned => exact replies _ (fun _ => rfl) nofun
  | create returned =>
      refine Obeys.bind ((entryFor_obeys fs id _ []).mono fun h out done => ?_)
      cases out with
      | error e => exact nofun
      | ok entry =>
          obtain ⟨ino, retained⟩ := done entry rfl
          refine Obeys.bind ((bindFile_obeys id _ h).grows.mono fun h' out bound => ?_)
          cases out with
          | error e => exact nofun
          | ok opened =>
              intro reply e ok is
              cases ok
              cases is
              refine ⟨ino, bound.2.mem retained, fun opened' created => ?_⟩
              cases created
              obtain ⟨counted, listed⟩ := bound.1 opened rfl
              exact ⟨counted, _, listed⟩

end Request

/-! ## What a number denotes -/

/-- What `id` denotes in the later table it denoted in the earlier one. -/
def KeepsNode {N : Type} (id : NodeId) (t t' : NodeTable N) : Prop :=
  ∀ slot' : Slot N, t'.map[id]? = some slot' →
    ∃ slot : Slot N, t.map[id]? = some slot ∧ slot'.record = slot.record ∧
      slot'.generation = slot.generation

namespace KeepsNode

variable {N : Type} {t t' t'' : NodeTable N} {id ino : NodeId} {slot slot' : Slot N}

theorem refl : KeepsNode id t t := fun slot' live => ⟨slot', live, rfl, rfl⟩

theorem trans (first : KeepsNode id t t') (second : KeepsNode id t' t'') : KeepsNode id t t'' := by
  intro slot'' live
  obtain ⟨slot', live, record', generation'⟩ := second slot'' live
  obtain ⟨slot, live, record, generation⟩ := first slot' live
  exact ⟨slot, live, record'.trans record, generation'.trans generation⟩

theorem put (live : t.map[ino]? = some slot) (record : slot'.record = slot.record)
    (generation : slot'.generation = slot.generation) : KeepsNode id t (t.put ino slot') := by
  intro slot'' live'
  rw [put_map] at live'
  split at live'
  · rename_i same
    subst same
    cases live'
    exact ⟨slot, live, record, generation⟩
  · exact ⟨slot'', live', rfl, rfl⟩

theorem maybeDrop : KeepsNode id t (t.maybeDrop ino) := by
  unfold NodeTable.maybeDrop
  split
  · split
    · intro slot' live
      rw [ExtTreeMap.getElem?_erase] at live
      split at live
      · cases live
      · exact ⟨slot', live, rfl, rfl⟩
    · exact refl
  · exact refl

/-- A slot rewritten with its node, and dropped if nothing holds it. -/
theorem settle (live : t.map[ino]? = some slot) (record : slot'.record = slot.record)
    (generation : slot'.generation = slot.generation) : KeepsNode id t ((t.put ino slot').maybeDrop ino) :=
  (put live record generation).trans maybeDrop

theorem get : KeepsNode id t (t.get ino).2 := by
  unfold NodeTable.get
  split
  · exact refl
  · rename_i slot live
    split
    · exact put live rfl rfl
    · exact refl

theorem reparent {newParent : NodeId} : KeepsNode id t (t.reparent ino newParent) := by
  unfold NodeTable.reparent
  split
  · exact refl
  · rename_i slot live
    exact put live rfl rfl

theorem addLink : KeepsNode id t (t.addLink ino).2 := by
  unfold NodeTable.addLink
  split
  · exact refl
  · rename_i slot live
    split
    · exact put live rfl rfl
    · exact refl

theorem removeLink : KeepsNode id t (t.removeLink ino) := by
  unfold NodeTable.removeLink
  split
  · exact maybeDrop
  · rename_i slot live
    exact settle live rfl rfl

theorem dropRef {r : Lease} : KeepsNode id t (t.dropRef r) := by
  unfold NodeTable.dropRef
  split
  · exact maybeDrop
  · rename_i slot live
    split
    · exact settle live rfl rfl
    · exact maybeDrop

theorem retainLookup : KeepsNode id t (t.retainLookup ino).2 := by
  unfold NodeTable.retainLookup
  split
  · exact refl
  · rename_i slot live
    split
    · exact put live rfl rfl
    · exact refl

theorem beginForget {nlookup : Nat} : KeepsNode id t (t.beginForget ino nlookup).2 := by
  unfold NodeTable.beginForget
  split
  · exact refl
  · rename_i slot live
    dsimp only
    split
    · split
      · exact put live rfl rfl
      · exact put live rfl rfl
    · exact put live rfl rfl

theorem addOpen : KeepsNode id t (t.addOpen ino).2 := by
  unfold NodeTable.addOpen
  split
  · exact refl
  · rename_i slot live
    split
    · exact put live rfl rfl
    · exact refl

theorem removeOpen : KeepsNode id t (t.removeOpen ino) := by
  unfold NodeTable.removeOpen
  split
  · exact maybeDrop
  · rename_i slot live
    exact settle live rfl rfl

/-- Only an insertion that is given the number makes it denote another node. -/
theorem insert {payload : N} {parent : NodeId}
    (other : ∀ generation t₁, t.alloc ≠ some ((id, generation), t₁)) :
    KeepsNode id t (t.insert payload parent).2 := by
  intro slot' live
  rcases alloc_cases t with none | ⟨⟨ino, generation⟩, rest, -, alloc⟩ | ⟨-, alloc⟩
  · rw [NodeTable.insert, none] at live
    exact ⟨slot', live, rfl, rfl⟩
  · have new : ino ≠ id := by
      rintro rfl
      exact other _ _ alloc
    rw [NodeTable.insert, alloc] at live
    refine ⟨slot', ?_, rfl, rfl⟩
    simpa [ExtTreeMap.getElem?_insert, new] using live
  · have new : t.nextIno ≠ id := by
      rintro rfl
      exact other _ _ alloc
    rw [NodeTable.insert, alloc] at live
    refine ⟨slot', ?_, rfl, rfl⟩
    simpa [ExtTreeMap.getElem?_insert, new] using live

/-- Every operation but such an insertion leaves the number with its node. -/
theorem step {w w' : World K X.State} {o : RtOp K} {r : o.Res} (step : World.step X o w r w')
    (other : ∀ payload parent generation t₁, o = .cx (.insert payload parent) →
      w.table.alloc ≠ some ((id, generation), t₁)) : KeepsNode id w.table w'.table := by
  cases o with
  | cx o =>
      cases o with
      | get id => rw [step.2]; exact get
      | drop ref => rw [step.2]; exact dropRef
      | contains id => rw [step.2]; exact refl
      | insert payload parent =>
          rw [step.2]
          exact insert fun generation t₁ => other payload parent generation t₁ rfl
      | reparent id newParent => rw [step]; exact reparent
      | addLink id => rw [step.2]; exact addLink
      | removeLink id => rw [step]; exact removeLink
      | ext e =>
          obtain ⟨x, -, rfl⟩ := step
          exact refl
  | get id => rw [step.2]; exact get
  | dropRef ref => rw [step]; exact dropRef
  | retainLookup id => rw [step.2]; exact retainLookup
  | generationOf id => rw [step.2]; exact refl
  | parentOf ino => rw [step.2]; exact refl
  | beginForget ino nlookup => rw [step.2]; exact beginForget
  | maybeDrop id => rw [step]; exact maybeDrop
  | addOpen ino => rw [step.2]; exact addOpen
  | removeOpen ino => rw [step]; exact removeOpen
  | hasOpens ino => rw [step.2]; exact refl
  | file o =>
      obtain ⟨files, -, rfl⟩ := step
      exact refl
  | dir o =>
      obtain ⟨dirs, -, rfl⟩ := step
      exact refl
  | addFile node handle => rw [step.2]; exact refl
  | addDir node handle => rw [step.2]; exact refl
  | offerDir ino entry => rw [step]; exact refl
  | offerPlus ino entry => rw [step]; exact refl

end KeepsNode

/-! ## Replies along a run -/

section Runs

variable {C : Pool (runtime X) Exit Reply (Call K) → Label (rtSig K) (Call K) → Prop}
  {c₀ c c₁ c₂ : Pool (runtime X) Exit Reply (Call K)} {tr tr₁ tr₂ : List (Label (rtSig K) (Call K))}
  {i : Nat} {id : NodeId} {q : Call K} {reply : Reply} {e : EntryReply} {w₀ : World K X.State}

/-- A request at work was given `id` by its callback. -/
def Awaited (c : Pool (runtime X) Exit Reply (Call K)) (id : NodeId) : Prop :=
  ∃ (i : Nat) (q : Call K) (o : RtOp K) (k : o.Res → Action K Reply),
    c.threads[i]? = some (q, .op o k) ∧
    ∃ past rest past', q.request.Makes q.fs past id rest ∧ After rest past' (.op o k)

/-- No node is inserted under a number that a request at work was given by its callback. -/
def Unreissued (c : Pool (runtime X) Exit Reply (Call K)) (l : Label (rtSig K) (Call K)) : Prop :=
  ∀ i payload parent r, l = .op i (.cx (.insert payload parent)) r →
    ∀ id generation t, c.state.table.alloc = some ((id, generation), t) → ¬Awaited c id

/-- In `c₁`, on the way of the run, the callback of thread `i` has returned `id` and the request has
not gone on. -/
structure ReturnsAt (C : Pool (runtime X) Exit Reply (Call K) → Label (rtSig K) (Call K) → Prop)
    (c₀ : Pool (runtime X) Exit Reply (Call K)) (tr : List (Label (rtSig K) (Call K)))
    (c : Pool (runtime X) Exit Reply (Call K)) (i : Nat) (id : NodeId)
    (tr₁ : List (Label (rtSig K) (Call K))) (c₁ : Pool (runtime X) Exit Reply (Call K))
    (tr₂ : List (Label (rtSig K) (Call K))) : Prop where
  trace : tr = tr₁ ++ tr₂
  before : Run Call.prog C c₀ tr₁ c₁
  after : Run Call.prog C c₁ tr₂ c
  returned : ∃ (q : Call K) (rest : Action K Reply), c₁.threads[i]? = some (q, rest) ∧
    q.request.Makes q.fs (ownOps i tr₁) id rest

/-- The entry is that of the node `id` denoted in `c₁`.  As long as thread `i` is at work, `id`
denotes no other node; and for `create`, its open is counted and its handle listed under `id`. -/
structure Names (C : Pool (runtime X) Exit Reply (Call K) → Label (rtSig K) (Call K) → Prop)
    (c₁ : Pool (runtime X) Exit Reply (Call K)) (tr₂ : List (Label (rtSig K) (Call K)))
    (c : Pool (runtime X) Exit Reply (Call K)) (i : Nat) (id : NodeId) (reply : Reply)
    (e : EntryReply) : Prop where
  ino : e.ino = id
  node : ∃ slot : Slot K.Node, c₁.state.table.map[id]? = some slot ∧
    e.generation = slot.generation ∧
    ∀ tr₃ c₂ tr₄, tr₂ = tr₃ ++ tr₄ → Run Call.prog C c₁ tr₃ c₂ → Run Call.prog C c₂ tr₄ c →
      ownOps i tr₄ ≠ [] → ∀ slot' : Slot K.Node, c₂.state.table.map[id]? = some slot' →
        slot'.record = slot.record ∧ slot'.generation = slot.generation
  handle : ∀ opened, reply = .created e opened → .op i (.addOpen id) (some true) ∈ tr₂ ∧
    ∃ handle, .op i (.addFile id handle) (some opened.fh) ∈ tr₂

/-- Every entry in a reply is that of the node the request's callback returned. -/
def NamesReturned (C : Pool (runtime X) Exit Reply (Call K) → Label (rtSig K) (Call K) → Prop)
    (c₀ : Pool (runtime X) Exit Reply (Call K)) (tr : List (Label (rtSig K) (Call K)))
    (c : Pool (runtime X) Exit Reply (Call K)) : Prop :=
  ∀ (i : Nat) (q : Call K) (reply : Reply) (e : EntryReply),
    c.threads[i]? = some (q, .ret reply) → reply.entryReply = some e →
    (∃ id tr₁ c₁ tr₂, ReturnsAt C c₀ tr c i id tr₁ c₁ tr₂) ∧
    ∀ id tr₁ c₁ tr₂, ReturnsAt C c₀ tr c i id tr₁ c₁ tr₂ → Names C c₁ tr₂ c i id reply e

/-- A number stays with its node while the request that was given it is at work. -/
theorem run_keepsNode {rest : Action K Reply} {past : Past (rtSig K)}
    (run : Run Call.prog Unreissued c₁ tr c₂) (thread : c₁.threads[i]? = some (q, rest))
    (makes : q.request.Makes q.fs past id rest) {o : RtOp K} {k : o.Res → Action K Reply}
    (working : c₂.threads[i]? = some (q, .op o k)) : KeepsNode id c₁.state.table c₂.state.table := by
  induction run generalizing o k with
  | nil => exact .refl
  | @snoc tr c₂ c₃ l run spared move ih =>
      obtain ⟨p, thread₂, after⟩ := run.goesOn thread
      obtain ⟨p', thread₃, last⟩ := move.after thread₂
      rw [working] at thread₃
      cases thread₃
      -- A thread that is at work after the move was at work before it.
      obtain ⟨o', k', rfl⟩ : ∃ o' k', p = .op o' k' := by
        generalize ownOps i [l] = own at last
        cases last with
        | here => exact ⟨_, _, rfl⟩
        | op _ => exact ⟨_, _, rfl⟩
      have awaited : Awaited c₂ id := ⟨i, q, o', k', thread₂, past, rest, _, makes, after⟩
      refine (ih thread₂).trans ?_
      cases move with
      | start q' => exact .refl
      | op step =>
          refine KeepsNode.step step fun payload parent generation t eq alloc => ?_
          subst eq
          exact spared _ payload parent _ rfl id generation t alloc awaited

/-- The section that counts a lookup reads the generation off the node's slot. -/
theorem retained_live {w w' : World K X.State} {generation : Nat}
    (step : World.step X (.retainLookup id) w (some (some generation)) w') :
    ∃ slot : Slot K.Node, w.table.map[id]? = some slot ∧ slot.generation = generation := by
  obtain ⟨answer, -⟩ := step
  rcases retainLookup_cases w.table id with ⟨-, eq⟩ | eq | ⟨slot, live, eq⟩
  · rw [eq] at answer
    cases answer
  · rw [eq] at answer
    cases answer
  · rw [eq] at answer
    cases answer
    exact ⟨slot, live, rfl⟩

theorem ReturnsAt.names (at_ : ReturnsAt Unreissued ⟨w₀, []⟩ tr c i id tr₁ c₁ tr₂)
    (thread : c.threads[i]? = some (q, .ret reply)) (entry : reply.entryReply = some e) :
    Names Unreissued c₁ tr₂ c i id reply e := by
  obtain ⟨q', rest, thread₁, makes⟩ := at_.returned
  obtain ⟨p, thread', after⟩ := at_.after.goesOn thread₁
  rw [thread] at thread'
  cases thread'
  obtain ⟨ino, retained, created⟩ := makes.named.after after reply e rfl entry
  rw [List.nil_append] at retained created
  have still : ∀ tr₃ c₂ tr₄, Run Call.prog Unreissued c₁ tr₃ c₂ → Run Call.prog Unreissued c₂ tr₄ c →
      ownOps i tr₄ ≠ [] → KeepsNode id c₁.state.table c₂.state.table := by
    intro tr₃ c₂ tr₄ before later own
    obtain ⟨p, thread₂, -⟩ := before.goesOn thread₁
    obtain ⟨p', -, after⟩ := later.goesOn thread₂
    obtain ⟨o, k, rfl⟩ : ∃ o k, p = .op o k := by
      generalize ownOps i tr₄ = past at after own
      cases after with
      | here => exact absurd rfl own
      | op _ => exact ⟨_, _, rfl⟩
    exact run_keepsNode before thread₁ makes thread₂
  refine ⟨ino, ?_, fun opened eq => ?_⟩
  · -- The section that counts the lookup finds the number in the table.
    obtain ⟨tr₃, tr₄, rfl⟩ := List.append_of_mem (mem_ownOps.mp retained)
    obtain ⟨c₂, c₃, before, spared, move, later⟩ := at_.after.split
    have on := later.cons spared move
    have own := List.ne_nil_of_mem (mem_ownOps.mpr (List.mem_cons_self
      (a := .op i (.retainLookup id) (some (some e.generation))) (l := tr₄)))
    obtain ⟨slot', live', counted⟩ := retained_live move.op_inv.1
    obtain ⟨slot, live, -, generation⟩ := still _ _ _ before on own slot' live'
    refine ⟨slot, live, counted.symm.trans generation, ?_⟩
    rintro tr₃' c₂' tr₄' - before' later' own' slot'' live''
    obtain ⟨slot₀, live₀, same⟩ := still _ _ _ before' later' own' slot'' live''
    rw [live] at live₀
    cases live₀
    exact same
  · obtain ⟨counted, handle, listed⟩ := created opened eq
    exact ⟨mem_ownOps.mp counted, handle, mem_ownOps.mp listed⟩

/-- Replies name the nodes the callbacks returned, as long as no number is handed out again that a
request at work was given. -/
theorem reply_names_returned_node
    (run : Run Call.prog Unreissued ⟨w₀, []⟩ tr c) : NamesReturned Unreissued ⟨w₀, []⟩ tr c := by
  intro i q reply e thread entry
  refine ⟨?_, fun id tr₁ c₁ tr₂ at_ => at_.names thread entry⟩
  have after := run.after thread
  obtain ⟨past₁, past₂, id, rest, eq, makes⟩ := Request.makes_of_entry after entry
  have goesOn : After rest past₂ (.ret reply) := makes.goesOn (eq ▸ after)
  obtain ⟨-, retained, -⟩ := makes.named.after goesOn reply e rfl entry
  cases past₂ with
  | nil => cases retained
  | cons op past₂ =>
      obtain ⟨tr₁, tr₂, rfl, own, -⟩ := ownOps_split eq
      obtain ⟨c₁, c₂, before, spared, move, later⟩ := run.split
      obtain ⟨-, q', k, thread₁, -⟩ := move.op_inv
      obtain ⟨p, thread', -⟩ := (later.cons spared move).goesOn thread₁
      rw [thread] at thread'
      cases thread'
      have here : After rest [] (.op op.1 k) := by
        refine makes.goesOn ?_
        rw [List.append_nil, ← own]
        exact before.after thread₁
      cases here
      exact ⟨id, tr₁, c₁, _, rfl, before, later.cons spared move, q, _, thread₁, own ▸ makes⟩

end Runs

/-! ## A lookup of the root -/

def rootFs : NodeFs plainTypes := { plainFs with lookup := fun _ _ _ => .ret (some 1) }

def rootLookup : Call plainTypes := ⟨rootFs, .lookup 1 [97] ⟨0, 0, 0, 0⟩⟩

def rootLookupTrace : List (Label (rtSig plainTypes) (Call plainTypes)) :=
  [.start rootLookup, .op 0 (.get 1) (some (some ⟨1, ⟨0, ()⟩⟩)),
    .op 0 (.retainLookup 1) (some (some 0)), .op 0 (.dropRef ⟨1, ⟨0, ()⟩⟩) ()]

/-- Nothing is inserted while the root is looked up, and the reply names the root. -/
theorem rootLookup_names_root :
    ∃ c : Pool (runtime plainMachine) Exit Reply (Call plainTypes),
      c.threads = [(rootLookup, .ret (.lookup (.found ⟨1, 0, ⟨.regularFile, 0, 1⟩⟩)))] ∧
      Run (M := runtime plainMachine) Call.prog Unreissued ⟨plainWorld, []⟩ rootLookupTrace c ∧
      NamesReturned (X := plainMachine) Unreissued ⟨plainWorld, []⟩ rootLookupTrace c := by
  let start : Pool (runtime plainMachine) Exit Reply (Call plainTypes) := ⟨plainWorld, []⟩
  have play : ∃ c, start.play (World.exec plainExec true) Call.prog
      [.start rootLookup, .step 0, .step 0, .step 0] [] = some (rootLookupTrace, c) ∧
      c.threads = [(rootLookup, .ret (.lookup (.found ⟨1, 0, ⟨.regularFile, 0, 1⟩⟩)))] :=
    ⟨_, rfl, rfl⟩
  obtain ⟨c, play, threads⟩ := play
  have run : Run Call.prog Unreissued start rootLookupTrace c := by
    refine (Pool.play_run plainExec_sound .nil play).imp fun c₁ l mem _ => ?_
    rintro i payload parent r rfl
    simp only [rootLookupTrace, List.mem_cons, List.not_mem_nil, or_false] at mem
    rcases mem with eq | eq | eq | eq <;> cases eq
  exact ⟨c, threads, run, reply_names_returned_node run⟩

/-! ## A number handed out again -/

/-- One name for whatever node has the number 2, which `lookup` finds and `unlink` takes away. -/
def reissueFs : NodeFs plainTypes :=
  { plainFs with
    lookup := fun _ _ _ => .op (.cx (.contains 2)) fun (found : Bool) =>
      .ret (if found then some 2 else none)
    mknod := fun parent _ _ _ _ _ => .op (.cx (.insert () parent)) fun
      | none => .exit .panic
      | some id => .ret id
    unlink := fun _ _ _ => .op (.cx (.removeLink 2)) fun _ => .ret () }

def reissueLookup : Call plainTypes := ⟨reissueFs, .lookup 1 [97] ⟨0, 0, 0, 0⟩⟩

/-- The node is made and forgotten, and a lookup has just been told its number. -/
def reissueBefore : List (Turn (Call plainTypes)) :=
  [.start ⟨reissueFs, .mknod 1 [97] 0 0 0 ⟨0, 0, 0, 0⟩⟩, .step 0, .step 0, .step 0, .step 0,
    .start ⟨reissueFs, .forget 2 1⟩, .step 1, .step 1,
    .start reissueLookup, .step 2]

/-- The name is unlinked and made again before the lookup goes on. -/
def reissueAfter : List (Turn (Call plainTypes)) :=
  [.start ⟨reissueFs, .unlink 1 [97] ⟨0, 0, 0, 0⟩⟩, .step 3,
    .start ⟨reissueFs, .mknod 1 [97] 0 0 0 ⟨0, 0, 0, 0⟩⟩, .step 4, .step 2, .step 2, .step 2]

def playReissue (turns : List (Turn (Call plainTypes)))
    (c : Pool (runtime plainMachine) Exit Reply (Call plainTypes)) :
    Option (List (Label (rtSig plainTypes) (Call plainTypes)) ×
      Pool (runtime plainMachine) Exit Reply (Call plainTypes)) :=
  c.play (World.exec plainExec true) Call.prog turns []

theorem playReissue_run {turns : List (Turn (Call plainTypes))}
    {c : Pool (runtime plainMachine) Exit Reply (Call plainTypes)}
    {done : List (Label (rtSig plainTypes) (Call plainTypes)) ×
      Pool (runtime plainMachine) Exit Reply (Call plainTypes)}
    (play : playReissue turns c = some done) :
    Run Call.prog (fun _ _ => True) c done.1 done.2 :=
  Pool.play_run plainExec_sound .nil play

def reissueFirst : List (Label (rtSig plainTypes) (Call plainTypes)) ×
    Pool (runtime plainMachine) Exit Reply (Call plainTypes) :=
  (playReissue reissueBefore ⟨plainWorld, []⟩).get (by decide)

def reissueSecond : List (Label (rtSig plainTypes) (Call plainTypes)) ×
    Pool (runtime plainMachine) Exit Reply (Call plainTypes) :=
  (playReissue reissueAfter reissueFirst.2).get (by decide)

theorem reissueFirst_returned : ownOps 2 reissueFirst.1 = [⟨.cx (.contains 2), true⟩] ∧
    ∃ p, reissueFirst.2.threads[2]? = some (reissueLookup, p) := ⟨rfl, _, rfl⟩

theorem reissueFirst_generation :
    reissueFirst.2.state.table.map[2]?.map Slot.generation = some 0 := by decide

theorem reissueSecond_replied : reissueSecond.2.threads[2]? =
    some (reissueLookup, .ret (.lookup (.found ⟨2, 1, ⟨.regularFile, 0, 1⟩⟩))) := rfl

/-- The lookup was told of generation 0 and replies with generation 1. -/
theorem reissued_lookup_names_another : Started plainMachine () () plainWorld ∧
    ¬∀ (tr : List (Label (rtSig plainTypes) (Call plainTypes)))
      (c : Pool (runtime plainMachine) Exit Reply (Call plainTypes)),
      Run Call.prog (fun _ _ => True) ⟨plainWorld, []⟩ tr c →
      NamesReturned (X := plainMachine) (fun _ _ => True) ⟨plainWorld, []⟩ tr c := by
  refine ⟨⟨.ret (), rfl, rfl⟩, fun always => ?_⟩
  have run₁ : Run Call.prog (fun _ _ => True) ⟨plainWorld, []⟩ reissueFirst.1 reissueFirst.2 :=
    playReissue_run (Option.some_get _).symm
  have run₂ : Run Call.prog (fun _ _ => True) reissueFirst.2 reissueSecond.1 reissueSecond.2 :=
    playReissue_run (Option.some_get _).symm
  obtain ⟨own, p, thread⟩ := reissueFirst_returned
  have makes : reissueLookup.request.Makes reissueLookup.fs (ownOps 2 reissueFirst.1) 2
      (Runtime.entryFor reissueFs 2 ⟨0, 0, 0, 0⟩ >>= fun entry => .ret (.lookup (.found entry))) := by
    rw [own]
    exact .lookup (.op .here)
  have after := run₁.after thread
  rw [← List.append_nil (ownOps 2 reissueFirst.1)] at after
  have here := makes.goesOn after
  cases here with
  | here =>
  have moment : ReturnsAt (X := plainMachine) (fun _ _ => True) ⟨plainWorld, []⟩
      (reissueFirst.1 ++ reissueSecond.1) reissueSecond.2 2 2 reissueFirst.1 reissueFirst.2
      reissueSecond.1 := ⟨rfl, run₁, run₂, reissueLookup, _, thread, makes⟩
  have named := (always _ _ (run₁.append run₂) 2 _ _ _ reissueSecond_replied rfl).2 2 _ _ _ moment
  obtain ⟨slot, live, generation, -⟩ := named.node
  have zero := reissueFirst_generation
  rw [live] at zero
  cases generation.trans (Option.some.inj zero)

end TypedFuse
