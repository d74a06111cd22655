import TypedFuse.Session.Shims

/-!
# The references the kernel holds

A session serves requests one after another.  The kernel gains a reference for each entry in a
reply that was delivered, and gives references back with `forget` and `forget_multi`.
`kernel_refs_match` says when the runtime's lookup counts are those references.

They are not always: `undelivered_lookup_leaks`.  Only `readdirplus` looks at what became of its
reply; its buffer takes a name with a NUL byte without writing it; and a callback that panics after
entries were accepted, or while lookups are being given back, leaves lookups behind.
`SessionRequest.Benign` excludes exactly these.
-/

namespace TypedFuse

open Prog NodeTable

variable {K : FsTypes} {X : Machine K.Ext} {α : Type} {T F : Holdings}

/-! ## Histories of a session -/

/-- The inodes of the entries in a reply that the kernel takes a reference for. -/
def Sent.refs : Sent → Multiset NodeId
  | .entry e => {e.ino}
  | .created e _ => {e.ino}
  | .plusBuf entries => countedInos entries
  | _ => 0

/-- The references a request gives back. -/
def SessionRequest.forgets : SessionRequest → Multiset NodeId
  | .forget ino nlookup => Multiset.replicate nlookup ino
  | .forgetMulti entries => (entries.map fun e => Multiset.replicate e.2 e.1).sum
  | _ => 0

/-- A request that has been served, its reply, and whether that was delivered. -/
structure Exchange where
  request : SessionRequest
  sent : Sent
  delivered : Bool

def Exchange.received (e : Exchange) : Multiset NodeId := if e.delivered then e.sent.refs else 0

/-- The references the kernel has received. -/
def received (h : List Exchange) : Multiset NodeId := (h.map Exchange.received).sum

/-- The references it has given back. -/
def returned (h : List Exchange) : Multiset NodeId := (h.map fun e => e.request.forgets).sum

/-- Requests served one after another from `w₀`, each on a filesystem that behaves as it likes and
with replies delivered or not; each meets the condition `C`, no counter overflows, and the kernel
gives back no more than it has. -/
inductive Serves (X : Machine K.Ext) (lib : Session.RecordSizes)
    (C : NodeFs K → (Sent → Bool) → SessionRequest → Prop) (w₀ : World K X.State) :
    List Exchange → World K X.State → Prop
  | start : Serves X lib C w₀ [] w₀
  | request {h : List Exchange} {w w' : World K X.State} (fs : NodeFs K) (delivered : Sent → Bool)
      (q : SessionRequest) (sent : Sent) :
    Serves X lib C w₀ h w → C fs delivered q →
    (q.run lib fs delivered).Exec (calm X) w (.ok sent) w' →
    q.forgets + returned h ≤ received h →
    Serves X lib C w₀ (h ++ [⟨q, sent, delivered sent⟩]) w'

/-! ## When no reference is lost -/

/-- A callback that does not panic, unless a counter overflows. -/
def Composed : TotalCallback K α → Prop
  | .ret _ => True
  | .exit _ => False
  | .op (.cx o) k => ∀ r, o.overflows r = false → Composed (k r)
  | .op (.offer e) _ => nomatch e

/-- A directory read that offers no name with a NUL byte, and that does not panic once its sink
has taken an entry other than `.` and `..` (`taken`). -/
def Tame : ReadCallback K PlusOffer α → (taken : Bool) → Prop
  | .ret _, _ => True
  | .exit e, taken => e = .panic → taken = false
  | .op (.cx o) k, taken => ∀ r, o.overflows r = false → Tame (k r) taken
  | .op (.offer e) k, taken => 0 ∉ e.name ∧ Tame (k (some false)) taken ∧
      Tame (k (some true)) (taken || (e.name != OsStr.dot && e.name != OsStr.dotDot))

/-- The requests that lose no reference. -/
def SessionRequest.Benign (fs : NodeFs K) (delivered : Sent → Bool) : SessionRequest → Prop
  | .lookup _ _ _ => ∀ e, delivered (.entry e) = true
  | .mknod _ _ _ _ _ => ∀ e, delivered (.entry e) = true
  | .mkdir _ _ _ _ => ∀ e, delivered (.entry e) = true
  | .symlink _ _ _ _ => ∀ e, delivered (.entry e) = true
  | .link _ _ _ _ => ∀ e, delivered (.entry e) = true
  | .create _ _ _ _ _ => ∀ e reply, delivered (.created e reply) = true
  | .readdirplus ino _ _ off caller =>
      (∀ n parent h, Tame (fs.readdirplus n ino parent h off.toNat caller) false) ∧
      ∀ n, Composed (fs.forget n)
  | .forgetMulti entries => entries.length ≤ 1 ∨ ∀ n, Composed (fs.forget n)
  | _ => True

/-- The protocol of requests that run alone while no counter overflows. -/
abbrev alone (X : Machine K.Ext) : Protocol (calm X) Holdings :=
  (protocol X True).without fun o r => RtOp.overflows o r = true

theorem Safe.alone {p : Action K α} {Q : Except Exit α → Holdings → Prop}
    (safe : p.Safe (protocol X True) T Q) : p.Runs (alone X) T Q :=
  (Safe.without safe).runs

/-! ## Giving lookups back -/

open TypedFuse.Runtime in
theorem call_composed {cb : TotalCallback K α} (composed : Composed cb) (w : World K X.State) :
    (callTotal cb).wp (calm X) (fun out _ => ∃ a, out = .ok a) w := by
  induction cb generalizing w with
  | ret a => exact ⟨a, rfl⟩
  | exit e => exact composed.elim
  | op o k ih =>
      cases o with
      | cx o => exact fun r w' step => ih r (composed r (eq_false_of_ne_true step.2)) w'
      | offer e => exact nomatch e

open TypedFuse.Runtime in
theorem forget_composed {fs : NodeFs K} (composed : ∀ n, Composed (fs.forget n)) (ino nlookup : Nat)
    (w : World K X.State) :
    (forget fs ino nlookup).wp (calm X) (fun out _ => out = .ok ()) w := by
  intro r w' step
  match r with
  | none => exact absurd rfl step.2
  | some none => exact rfl
  | some (some none) => exact fun _ _ _ => rfl
  | some (some (some ref)) =>
      refine wp.andFinally ((call_composed (composed _) w').mono fun out w'' done => ?_)
      obtain ⟨a, rfl⟩ := done
      exact fun _ _ _ => ⟨rfl, rfl⟩

open TypedFuse.Runtime in
theorem forgetEach_composed {fs : NodeFs K} (composed : ∀ n, Composed (fs.forget n))
    (ids : List NodeId) :
    (forgetEach fs ids).Runs (alone X) (.looked ids) fun out T' => out = .ok () ∧ T' = 0 := by
  have never : ∀ w, (forgetEach fs ids).wp (calm X) (fun out _ => out = .ok ()) w := by
    induction ids with
    | nil => exact fun w => rfl
    | cons id rest ih =>
        intro w
        refine wp.bind ((forget_composed composed id 1 w).mono fun out w' done => ?_)
        subst done
        exact ih w'
  refine ((Safe.alone (forgetEach_ends fs ids)).and never).mono fun out T' done => ?_
  obtain ⟨⟨rfl, rfl⟩ | rfl, ok⟩ := done
  · exact ⟨rfl, rfl⟩
  · cases ok

/-! ## Directory reads with attributes -/

/-- Without a NUL byte in the name, what the buffer takes it has written. -/
theorem add_cases (lib : Session.RecordSizes) {e : PlusEntry} (noNul : 0 ∉ e.name)
    (b : Session.RawDirentBuf PlusEntry) :
    ∃ took b', Session.plusSink (K := K) lib e b = .ret (some took, b') ∧
      b'.entries = if took then b.entries ++ [e] else b.entries := by
  unfold Session.plusSink Session.RawDirentBuf.add
  rw [if_neg noNul]
  by_cases full : b.used + lib.direntryPlus e.name > b.capacity
  · rw [if_pos full]
    exact ⟨false, b, rfl, rfl⟩
  · rw [if_neg full]
    exact ⟨true, _, rfl, rfl⟩

/-- Alone, the wrapped buffer holds a lookup for each entry it has written. -/
theorem accounting_alone {lib : Session.RecordSizes} {offer : PlusOffer} (noNul : 0 ∉ offer.name)
    {s : Runtime.Accounting (Session.RawDirentBuf PlusEntry)}
    (same : (s.accepted : Multiset NodeId) = countedInos s.inner.entries) :
    (Runtime.Accounting.add (Session.plusSink (K := K) lib) offer s).Runs (alone X)
      (.looked s.accepted) fun out T' => ∃ took s', out = .ok (some took, s') ∧
        T' = .looked s'.accepted ∧ (s'.accepted : Multiset NodeId) = countedInos s'.inner.entries ∧
        (took = false ∨ (offer.name != OsStr.dot && offer.name != OsStr.dotDot) = false →
          s'.accepted = s.accepted) := by
  intro w F inv
  rintro r w' ⟨⟨rfl, rfl⟩, -⟩
  cases gen : w'.table.generationOf offer.id with
  | none => exact ⟨_, ⟨false, s, rfl, rfl, same, fun _ => rfl⟩, inv⟩
  | some generation =>
      -- the buffer's answer comes without an operation, so the node is still there afterwards
      obtain ⟨took, b, sink, entries⟩ := add_cases (K := K) lib
        (e := ⟨offer.name, ⟨offer.id, generation, offer.attr⟩, offer.nextOffset⟩) noNul s.inner
      dsimp only
      rw [sink]
      cases took with
      | false =>
          refine ⟨_, ⟨false, { s with inner := b }, rfl, rfl, ?_, fun _ => rfl⟩, inv⟩
          rw [same, entries]
          rfl
      | true =>
          have page : countedInos b.entries = countedInos s.inner.entries +
              if offer.name != OsStr.dot && offer.name != OsStr.dotDot then {offer.id} else 0 := by
            rw [entries, if_pos rfl, countedInos_snoc]
            rfl
          show Prog.wp _ (if _ then _ else _) _ _
          split
          · rename_i counts
            have named : (offer.name != OsStr.dot && offer.name != OsStr.dotDot) = true := by
              simpa using counts
            rintro r w'' ⟨⟨rfl, rfl⟩, calm⟩
            obtain ⟨slot, live, -⟩ := Option.map_eq_some_iff.mp gen
            have inv' := World.Inv.retainLookup inv offer.id
            rcases retainLookup_cases w'.table offer.id with ⟨dead, -⟩ | eq | ⟨slot', -, eq⟩
            · rw [dead] at live
              cases live
            · exact absurd (by rw [eq]; rfl) calm
            · rw [eq] at inv' ⊢
              have accepted : Holdings.looked (s.accepted ++ [offer.id] : List NodeId) =
                  .looked {offer.id} + .looked s.accepted := by
                ext1 <;> simp [Holdings.looked, ← Multiset.coe_add, add_comm]
              refine ⟨_, ⟨true, ⟨b, s.accepted ++ [offer.id]⟩, rfl, rfl, ?_, ?_⟩, ?_⟩
              · dsimp only
                rw [page, if_pos named, ← Multiset.coe_add, same]
                rfl
              · rw [named]
                rintro (h | h) <;> cases h
              · rw [accepted, add_assoc]
                exact inv'
          · rename_i counts
            have unnamed : (offer.name != OsStr.dot && offer.name != OsStr.dotDot) = false := by
              simpa [imp_iff_not_or, not_and_or] using counts
            refine ⟨_, ⟨true, { s with inner := b }, rfl, rfl, ?_, fun _ => rfl⟩, inv⟩
            dsimp only
            rw [page, unnamed, same]
            exact (add_zero _).symm

open TypedFuse.Runtime in
/-- Alone, a tame directory read ends with a lookup for each entry written, and with none if it
panics. -/
theorem callRead_tame {lib : Session.RecordSizes} {cb : ReadCallback K PlusOffer Unit}
    {taken : Bool} (tame : Tame cb taken) {s : Accounting (Session.RawDirentBuf PlusEntry)}
    (same : (s.accepted : Multiset NodeId) = countedInos s.inner.entries)
    (fresh : taken = false → s.accepted = []) :
    (callRead (Accounting.add (Session.plusSink lib)) cb s).Runs (alone X) (.looked s.accepted)
      fun out T' => ∃ out' s', out = .ok (out', s') ∧ T' = .looked s'.accepted ∧
        (s'.accepted : Multiset NodeId) = countedInos s'.inner.entries ∧
        (out' = .error .panic → s'.accepted = []) := by
  induction cb generalizing taken s with
  | ret a => exact Runs.ret ⟨_, s, rfl, rfl, same, nofun⟩
  | exit e =>
      refine Runs.ret ⟨_, s, rfl, rfl, same, fun panic => fresh (tame ?_)⟩
      cases panic
      rfl
  | op o k ih =>
      cases o with
      | cx o =>
          rw [callRead, Prog.interpState]
          intro w F inv r w' step
          exact ih r (tame r (eq_false_of_ne_true step.2)) same fresh w' F (World.Inv.cx inv step.1)
      | offer e =>
          obtain ⟨noNul, refused, took⟩ := tame
          rw [callRead, Prog.interpState]
          refine Runs.bind (Runs.attempt ((accounting_alone noNul same).mono fun out T' done => ?_))
          obtain ⟨took', s', rfl, rfl, same', kept⟩ := done
          cases took' with
          | false =>
              refine ih (some false) refused same' fun none => ?_
              rw [kept (.inl rfl), fresh none]
          | true =>
              refine ih (some true) took same' fun none => ?_
              rw [Bool.or_eq_false_iff] at none
              rw [kept (.inr none.2), fresh none.1]

/-! ## Scopes of a request that runs alone -/

section Scopes

open TypedFuse.Runtime

variable {Q : Except Exit α → Holdings → Prop} {ino fh : Nat}

theorem lease_alone {ref : NodeRef K.Node} {body : Action K α} (runs : body.Runs (alone X) T Q) :
    (body.andFinally (.op (.dropRef ref) .ret)).Runs (alone X) (.ref ref.lease + T) Q := by
  refine Runs.andFinally ?_
  rw [add_comm]
  refine (runs.frame _).mono fun out T' done => ?_
  obtain ⟨T₀, rfl, done⟩ := done
  refine Safe.alone (Safe.rtOp (add_comm T₀ _) fun r => ⟨rfl, ?_⟩)
  show Q out (0 + T₀)
  rwa [zero_add]

theorem handle_alone {body : Action K α} (runs : body.Runs (alone X) T Q) :
    (body.andFinally (.op (.dir (.unlease fh)) .ret)).Runs (alone X)
      ({ dirs := { leases := {fh} } } + T) Q := by
  refine Runs.andFinally ?_
  rw [add_comm]
  refine (runs.frame _).mono fun out T' done => ?_
  obtain ⟨T₀, rfl, done⟩ := done
  refine Safe.alone (Safe.rtOp (add_comm T₀ _) fun r => ⟨rfl, ?_⟩)
  show Q out (0 + T₀)
  rwa [zero_add]

/-- A directory read's scope: it ends as its body does, or with an error and nothing in hand. -/
theorem onDir_alone {body : K.Node → NodeId → K.DirHandle → Action K α}
    (runs : ∀ n parent h, (body n parent h).Runs (alone X) 0 Q) (refused : ∀ e, Q (.error e) 0) :
    (onDir ino fh body).Runs (alone X) 0 Q := by
  refine Runs.bind ((Safe.alone (node_safe ino)).mono fun out T' done => ?_)
  match out with
  | .error (.errno e) =>
      obtain ⟨-, rfl⟩ := done
      exact refused _
  | .error .panic =>
      cases done
      exact refused _
  | .ok ref =>
      cases done
      refine lease_alone (Runs.op fun w F inv r w' step => ?_)
      obtain ⟨⟨-, rfl⟩, -⟩ := step
      refine ⟨0, inv, ?_⟩
      match r with
      | none => exact Runs.exit (refused _)
      | some parent =>
          refine Runs.bind ((Safe.alone (handleLease_safe dirSections ino fh)).mono
            fun out T' done => ?_)
          match out with
          | .error e =>
              cases done
              exact refused _
          | .ok h =>
              cases done
              exact handle_alone (runs _ _ h)

/-- What a part of a request has counted when it ends: the lookups of its result, and none if it
fails or panics. -/
def Owes (refs : α → Multiset NodeId) : Except Exit α → Holdings → Prop
  | .ok a, T => T.lookups = refs a
  | .error _, T => T.lookups = 0

theorem Ends.owes {owed : α → Holdings} {out : Except Exit α} (ends : Ends True False owed out T) :
    Owes (fun a => (owed a).lookups) out T := by
  match out with
  | .ok a => exact congrArg Holdings.lookups ends
  | .error (.errno e) => exact congrArg Holdings.lookups (ends trivial)
  | .error .panic => exact ends.resolve_left id

theorem readdirplus_alone {fs : NodeFs K} {lib : Session.RecordSizes} {caller : Caller}
    {offset size : Nat}
    (tame : ∀ n parent h, Tame (fs.readdirplus n ino parent h offset caller) false)
    (composed : ∀ n, Composed (fs.forget n)) :
    (readdirplus fs ino fh caller (Session.plusSink lib) ⟨size, 0, []⟩ offset).Runs (alone X) 0
      fun out T' =>
        match out with
        | .ok (retained, buf) => T' = .looked retained ∧
            (retained : Multiset NodeId) = countedInos buf.entries
        | .error _ => T' = 0 := by
  refine onDir_alone (fun n parent h => Runs.bind ?_) fun e => rfl
  refine (callRead_tame (tame n parent h) (s := ⟨⟨size, 0, []⟩, []⟩) rfl
    fun _ => rfl).mono fun out T' done => ?_
  obtain ⟨out', s, rfl, rfl, same, panic⟩ := done
  match out' with
  | .ok () => exact Runs.ret ⟨rfl, same⟩
  | .error (.errno e) =>
      refine Runs.bind ((forgetEach_composed composed s.accepted).mono fun out T' done => ?_)
      obtain ⟨rfl, rfl⟩ := done
      exact Runs.exit rfl
  | .error .panic =>
      rw [panic rfl]
      exact Runs.exit rfl

/-- With a lookup counted for the node, and no counter at its maximum, opening cannot fail. -/
theorem bindFile_alone (opened : Opened K.Handle) :
    (bindFile ino opened).Runs (alone X) (.looked {ino}) fun out T' =>
      T' = .looked {ino} ∧ ∃ reply, out = .ok reply := by
  have calm : ∀ w, (Runtime.addOpen ino : Action K Unit).wp (calm X)
      (fun out _ => out ≠ .error .panic) w := by
    intro w r w' step
    match r with
    | none => exact absurd rfl step.2
    | some false => exact nofun
    | some true => exact nofun
  refine Runs.bind (((Safe.alone (addOpen_looked ino)).and calm).mono fun out T' done => ?_)
  obtain ⟨opens, calm⟩ := done
  match out with
  | .error (.errno e) => exact absurd trivial opens
  | .error .panic => exact absurd rfl calm
  | .ok () =>
      cases opens
      intro w F inv r w' step
      have inv : World.Inv True w (.opened ino + .looked {ino} + F) := inv
      rw [add_assoc] at inv
      have inv' := inv.addFile opened.handle
      obtain ⟨⟨rfl, rfl⟩, calm⟩ := step
      cases number : (w.handles.addFile ino opened.handle).1 with
      | none => exact absurd (by rw [number]; rfl) calm
      | some fh =>
          rw [number, Option.isSome_some, if_pos rfl, zero_add] at inv'
          exact ⟨_, ⟨rfl, _, rfl⟩, inv'⟩

theorem create_alone (fs : NodeFs K) (caller : Caller) (parent : Nat) (name : OsStr)
    (mode umask flags : Nat) :
    (create fs caller parent name mode umask flags).Runs (alone X) 0
      (Owes fun r => {r.1.ino}) := by
  refine Runs.bind ((Safe.alone (call_safe _)).mono fun out T' done => ?_)
  subst done
  match out with
  | .error e => exact rfl
  | .ok (id, opened) =>
      refine Runs.bind ((Safe.alone (entryFor_safe fs id caller)).mono fun out T' done => ?_)
      obtain ⟨ends, ino⟩ := done
      match out with
      | .error e => exact Ends.owes ends
      | .ok e =>
          cases ends
          cases ino e rfl
          refine Runs.bind ((bindFile_alone opened).mono fun out T' done => ?_)
          obtain ⟨rfl, reply, rfl⟩ := done
          exact Runs.ret rfl

/-! ## Shims -/

theorem shim_runs {p : Action K α} {reply : α → Sent} {refs : α → Multiset NodeId}
    (runs : p.Runs (alone X) T (Owes refs)) (same : ∀ a, (reply a).refs = refs a) :
    (Session.shim p reply).Runs (alone X) T fun out T' =>
      ∃ sent, out = .ok sent ∧ T'.lookups = sent.refs ∧
        ((∃ e, sent = .err e) ∨ ∃ a, sent = reply a) := by
  refine Runs.bind (Runs.bind (Runs.attempt (runs.mono fun out T' done => ?_)))
  match out with
  | .ok a => exact Runs.ret (Runs.ret ⟨_, rfl, done.trans (same a).symm, .inr ⟨a, rfl⟩⟩)
  | .error (.errno e) => exact Runs.ret (Runs.ret ⟨_, rfl, done, .inl ⟨e, rfl⟩⟩)
  | .error .panic => exact Runs.ret (Runs.ret ⟨_, rfl, done, .inl ⟨_, rfl⟩⟩)

theorem forgetAll_runs {fs : NodeFs K} {entries : List (Nat × Nat)}
    (composed : entries.length ≤ 1 ∨ ∀ n, Composed (fs.forget n)) :
    (Session.forgetAll fs entries).Runs (alone X)
      (.looked (entries.map fun e => Multiset.replicate e.2 e.1).sum) fun _ T' => T' = 0 := by
  induction entries with
  | nil => exact Runs.ret rfl
  | cons e rest ih =>
      obtain ⟨ino, nlookup⟩ := e
      have split : Holdings.looked (((ino, nlookup) :: rest).map
          fun e => Multiset.replicate e.2 e.1).sum = .looked (Multiset.replicate nlookup ino) +
          .looked (rest.map fun e => Multiset.replicate e.2 e.1).sum := by
        ext1 <;> simp [Holdings.looked]
      have first := Safe.alone (X := X) (forget_settles fs ino nlookup)
      rw [split]
      rcases composed with single | composed
      · -- nothing is left to give back when the last entry's callback panics
        have nil : rest = [] := by simpa using single
        subst nil
        show Runs _ _ (_ + (0 : Holdings)) _
        rw [add_zero]
        refine Runs.bind (first.mono fun out T' done => ?_)
        obtain ⟨rfl, rfl | rfl⟩ := done
        · exact Runs.ret rfl
        · rfl
      · refine Runs.bind (((first.and (forget_composed composed ino nlookup)).frame _).mono
          fun out T' done => ?_)
        obtain ⟨T₀, rfl, ⟨rfl, -⟩, rfl⟩ := done
        rw [zero_add]
        exact ih (.inr composed)

/-- A request without entries counts no lookup. -/
theorem Request.entryless_alone (fs : NodeFs K) {q : Request} (entryless : q.entryless = true) :
    (q.run fs).Runs (alone X) 0 (Owes fun _ => 0) := by
  have plain : q.forgets = 0 ∧ ¬q.leaks := by
    cases q <;> first | exact ⟨rfl, id⟩ | cases entryless
  have other : ∀ {α : Type} {p : Action K α} {f : α → Reply}, (∀ a, (f a).retained = 0) →
      (p >>= fun a => .ret (f a)).Yields (calm X) fun reply => reply.retained = 0 := by
    intro α p f none
    refine Yields.bind (yields_true p) fun a _ w reply ok => ?_
    cases ok
    exact none a
  have yields : (q.run fs).Yields (calm X) fun reply => reply.retained = 0 := by
    cases q <;> first | exact other fun _ => rfl | cases entryless
  have safe : (q.run fs).Safe (protocol X True) _ _ := Request.safe fs q
  rw [plain.1] at safe
  refine ((Safe.alone safe).and yields).mono fun out T' done => ?_
  obtain ⟨ends, none⟩ := done
  match out with
  | .ok reply =>
      cases ends
      exact none reply rfl
  | .error (.errno e) => exact congrArg Holdings.lookups (ends trivial)
  | .error .panic => exact ends.resolve_left plain.2

theorem readdirplusShim_runs {lib : Session.RecordSizes} {fs : NodeFs K} {delivered : Sent → Bool}
    {caller : Caller} {size : Nat} {off : Int}
    (tame : ∀ n parent h, Tame (fs.readdirplus n ino parent h off.toNat caller) false)
    (composed : ∀ n, Composed (fs.forget n)) :
    (Session.readdirplusShim lib fs delivered caller ino fh size off).Runs (alone X) 0 fun out T' =>
      ∀ sent, out = .ok sent → T'.lookups = if delivered sent then sent.refs else 0 := by
  have nothing : ∀ {e : Errno} (sent : Sent), (.ok (.err e) : Except Exit Sent) = .ok sent →
      (0 : Multiset NodeId) = if delivered sent then sent.refs else 0 := by
    intro e sent ok
    cases ok
    exact (ite_self 0).symm
  unfold Session.readdirplusShim
  split
  · exact Runs.ret nothing
  · refine Runs.bind (Runs.bind (Runs.attempt ((readdirplus_alone tame composed).mono
      fun out T' done => ?_)))
    match out with
    | .error (.errno e) =>
        cases done
        exact Runs.ret (Runs.ret nothing)
    | .error .panic =>
        cases done
        exact Runs.ret (Runs.ret nothing)
    | .ok (retained, buf) =>
        obtain ⟨rfl, same⟩ := done
        refine Runs.ret ?_
        dsimp only
        split
        · rename_i sent
          refine Runs.ret fun sent' ok => ?_
          cases ok
          rw [if_pos sent]
          exact same
        · rename_i lost
          refine Runs.bind ((forgetEach_composed composed retained).mono fun out T' done => ?_)
          obtain ⟨rfl, rfl⟩ := done
          refine Runs.ret fun sent' ok => ?_
          cases ok
          rw [if_neg lost]
          rfl

/-- A benign request leaves the runtime with the lookups of what the kernel received. -/
theorem SessionRequest.runs {lib : Session.RecordSizes} {fs : NodeFs K} {delivered : Sent → Bool}
    {q : SessionRequest} (benign : q.Benign fs delivered) :
    (q.run lib fs delivered).Runs (alone X) (.looked q.forgets) fun out T' =>
      ∀ sent, out = .ok sent → T'.lookups = if delivered sent then sent.refs else 0 := by
  have replied : ∀ {α : Type} {p : Action K α} {reply : α → Sent} {refs : α → Multiset NodeId},
      p.Runs (alone X) 0 (Owes refs) → (∀ a, (reply a).refs = refs a) →
      (∀ a, delivered (reply a) = true ∨ refs a = 0) →
      (Session.shim p reply).Runs (alone X) 0 fun out T' =>
        ∀ sent, out = .ok sent → T'.lookups = if delivered sent then sent.refs else 0 := by
    intro α p reply refs runs same always
    refine (shim_runs runs same).mono fun out T' done sent ok => ?_
    obtain ⟨sent', rfl, lookups, which⟩ := done
    cases ok
    rw [lookups]
    rcases which with ⟨e, rfl⟩ | ⟨a, rfl⟩
    · exact (ite_self 0).symm
    · rcases always a with sent | none
      · rw [if_pos sent]
      · rw [same, none]
        exact (ite_self 0).symm
  have silent : ∀ {p : Action K Unit} {T : Holdings}, (p.Runs (alone X) T fun _ T' => T' = 0) →
      (Session.silent p).Runs (alone X) T fun out T' =>
        ∀ sent, out = .ok sent → T'.lookups = if delivered sent then sent.refs else 0 := by
    intro p T runs
    refine Runs.bind (Runs.attempt (runs.mono fun out T' done => Runs.ret fun sent ok => ?_))
    cases ok
    cases done
    exact (ite_self 0).symm
  have ends : ∀ {α : Type} {p : Action K α} {owed : α → Holdings},
      p.Safe (protocol X True) 0 (Ends True False owed) →
      p.Runs (alone X) 0 (Owes fun a => (owed a).lookups) :=
    fun safe => (Safe.alone safe).mono fun _ _ => Ends.owes
  have entry : ∀ {cb : Callback K NodeId} {caller : Caller},
      (call cb >>= fun id => entryFor fs id caller).Runs (alone X) 0 (Owes fun e => {e.ino}) :=
    ends (ends_bind (call_ends fun _ => rfl) fun id => entryFor_ends fs id _)
  cases q with
  | lookup parent name caller =>
      refine replied (ends (lookup_ends fs caller parent name)) (fun r => ?_) fun r => ?_
      · cases r <;> rfl
      · cases r with
        | found e => exact .inl (benign e)
        | negative => exact .inr rfl
  | forget ino nlookup =>
      exact silent ((Safe.alone (forget_settles fs ino nlookup)).mono fun _ _ done => done.1)
  | forgetMulti entries => exact silent (forgetAll_runs benign)
  | mknod parent name mode rdev caller => exact replied entry (fun _ => rfl) fun e => .inl (benign e)
  | mkdir parent name mode caller => exact replied entry (fun _ => rfl) fun e => .inl (benign e)
  | symlink target parent name caller => exact replied entry (fun _ => rfl) fun e => .inl (benign e)
  | link ino newparent newname caller => exact replied entry (fun _ => rfl) fun e => .inl (benign e)
  | create parent name mode flags caller =>
      exact replied (create_alone fs caller parent name mode caller.umask flags) (fun _ => rfl)
        fun r => .inl (benign r.1 r.2)
  | readdir ino fh size off caller =>
      unfold SessionRequest.run Session.readdirShim
      dsimp only
      split
      · refine Runs.ret fun sent ok => ?_
        cases ok
        exact (ite_self 0).symm
      · have sink : SinkSafe X True (Session.dirSink (K := K) lib) := fun e b => ⟨rfl, _, rfl⟩
        exact replied (ends (readdir_ends fs ino fh caller sink _ _)) (fun _ => rfl) fun _ => .inr rfl
  | readdirplus ino fh size off caller => exact readdirplusShim_runs benign.1 benign.2
  | other q entryless =>
      exact replied (Request.entryless_alone fs entryless) (fun _ => rfl) fun _ => .inr rfl

end Scopes

/-! ## The accounts -/

theorem received_snoc (h : List Exchange) (e : Exchange) :
    received (h ++ [e]) = received h + e.received := by simp [received]

theorem returned_snoc (h : List Exchange) (e : Exchange) :
    returned (h ++ [e]) = returned h + e.request.forgets := by simp [returned]

/-- The lookups in circulation are what the kernel received and has not given back. -/
theorem Serves.settled {lib : Session.RecordSizes} {root : K.Node} {x : X.State}
    {w₀ w : World K X.State} {h : List Exchange} (started : Started X root x w₀)
    (serves : Serves X lib (fun fs delivered q => q.Benign fs delivered) w₀ h w) :
    ∃ T : Holdings, World.Inv True w T ∧ T.lookups + returned h = received h := by
  induction serves with
  | start =>
      obtain ⟨populate, run⟩ := started
      have inv : World.Inv True (World.new root x) (0 + 0) := new_inv root x
      obtain ⟨T', rfl, inv'⟩ := Safe.exec (G := protocol X True) (Runtime.call_safe populate) inv
        run.of_without
      exact ⟨0, inv', rfl⟩
  | @request h w w' fs delivered q sent _ benign run covered ih =>
      obtain ⟨T, inv, balance⟩ := ih
      rw [← balance, Multiset.add_le_add_iff_right] at covered
      obtain ⟨rest, lookups⟩ := Multiset.le_iff_exists_add.mp covered
      have owns : T = .looked q.forgets + { T with lookups := rest } := by
        ext1 <;> simp [Holdings.looked, lookups]
      rw [owns] at inv
      obtain ⟨T', done, inv'⟩ := (SessionRequest.runs benign w _ inv).exec run
      refine ⟨_, inv', ?_⟩
      rw [Holdings.add_lookups, done sent rfl, received_snoc, returned_snoc, ← balance, lookups,
        Exchange.received]
      ac_rfl

/-- While every request is benign, the lookups of each node are the references the kernel has
received for it and not given back, and a node the kernel holds a reference to is there. -/
theorem kernel_refs_match {lib : Session.RecordSizes} {root : K.Node} {x : X.State}
    {w₀ w : World K X.State} {h : List Exchange} (started : Started X root x w₀)
    (serves : Serves X lib (fun fs delivered q => q.Benign fs delivered) w₀ h w) (ino : Nat) :
    (∀ slot : Slot K.Node, w.table.map[ino]? = some slot →
      slot.lookups = (received h).count ino - (returned h).count ino) ∧
    ((received h).count ino - (returned h).count ino ≠ 0 →
      ∃ slot : Slot K.Node, w.table.map[ino]? = some slot) := by
  obtain ⟨T, inv, balance⟩ := serves.settled started
  have held : T.lookups.count ino = (received h).count ino - (returned h).count ino := by
    rw [← balance, Multiset.count_add]
    omega
  have counted := inv.counted trivial
  rw [← held]
  exact ⟨counted.count ino, fun some => counted.live ino
    (Multiset.count_pos.mp (Nat.pos_of_ne_zero some))⟩

/-! ## A lookup, delivered and not -/

/-- Records of one byte. -/
def unitSizes : Session.RecordSizes := ⟨fun _ => 1, fun _ => 1⟩

def plainLookup : SessionRequest := .lookup 1 [97] ⟨0, 0, 0, 0⟩

def plainFound : Sent := .entry ⟨2, 0, ⟨.regularFile, 0, 1⟩⟩

theorem plainLookup_serves {C : NodeFs plainTypes → (Sent → Bool) → SessionRequest → Prop}
    (delivered : Sent → Bool) (meets : C plainFs delivered plainLookup) :
    Serves plainMachine unitSizes C plainWorld [⟨plainLookup, plainFound, delivered plainFound⟩]
      plainLooked :=
  .request plainFs delivered plainLookup plainFound .start meets
    (play_exec (M := calm plainMachine)
      (World.calmExec_step (X := plainMachine) plainExec true fun e => nomatch e) rfl)
    (Multiset.zero_le _)

/-- The one reference the kernel received is counted. -/
theorem plainLookup_refs_match : ∃ slot, plainLooked.table.map[2]? = some slot ∧
    slot.lookups = 1 := by
  have serves : Serves plainMachine unitSizes (fun fs delivered q => q.Benign fs delivered)
      plainWorld _ _ := plainLookup_serves (fun _ => true) fun _ => rfl
  have accounts := kernel_refs_match ⟨.ret (), rfl, rfl⟩ serves 2
  have live : plainLooked.table.map[2]?.isSome = true := by decide
  obtain ⟨slot, live⟩ := Option.isSome_iff_exists.mp live
  exact ⟨slot, live, accounts.1 slot live⟩

/-- The reply of a lookup is lost, and its lookup stays counted. -/
theorem undelivered_lookup_leaks : ¬∀ (h : List Exchange) (w : World plainTypes Unit),
    Serves plainMachine unitSizes (fun _ _ _ => True) plainWorld h w →
    ∀ (ino : Nat) (slot : Slot Unit), w.table.map[ino]? = some slot →
      slot.lookups = (received h).count ino - (returned h).count ino := by
  intro always
  have serves : Serves plainMachine unitSizes (fun _ _ _ => True) plainWorld _ _ :=
    plainLookup_serves (fun _ => false) trivial
  have one : plainLooked.table.map[2]?.map Slot.lookups = some 1 := by decide
  obtain ⟨slot, live, lookups⟩ := Option.map_eq_some_iff.mp one
  have zero := always _ _ serves 2 slot live
  rw [lookups] at zero
  cases zero

end TypedFuse
