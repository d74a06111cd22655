import TypedFuse.Runtime.HandleSafety

/-!
# The fallback handle

A `getattr` or `setattr` without a handle number may be given the file handle most recently opened on
its inode (`optional_file`).  The runtime finds it by scanning the listed numbers from the top, and
only asks the filesystem whether it wants one if the node has opens, of files or of directories.

Here requests run one after another, and `openFiles` reads off what they did which file handles are
still open, newest first.  The table always lists exactly those (`Lists`), so the scan finds the
newest one on the inode (`fallback_is_newest`).
-/

namespace TypedFuse

open Std Prog

variable {K : FsTypes} {X : Machine K.Ext} {α : Type}

/-! ## The file handles still open -/

/-- A file handle that was opened and has not been released. -/
structure OpenFile (H : Type) where
  fh : Nat
  node : NodeId
  handle : H

/-- An `open` or `create` binds a handle, and a `release` takes its record out. -/
def RtOp.opening : (o : RtOp K) → o.Res → List (OpenFile K.Handle) → List (OpenFile K.Handle)
  | .addFile node handle, some fh, opened => ⟨fh, node, handle⟩ :: opened
  | .file (.remove _ fh), true, opened => opened.filter (·.fh != fh)
  | _, _, opened => opened

/-- The file handles still open after `past`, newest first. -/
def openFiles (past : Past (rtSig K)) : List (OpenFile K.Handle) :=
  past.foldl (fun opened e => e.1.opening e.2 opened) []

theorem openFiles_snoc (past : Past (rtSig K)) (o : RtOp K) (r : o.Res) :
    openFiles (past ++ [⟨o, r⟩]) = o.opening r (openFiles past) := by
  simp [openFiles]

/-- The newest of the open handles on `ino`. -/
def newestOn {H : Type} (ino : Nat) (opened : List (OpenFile H)) : Option H :=
  (opened.find? (·.node == ino)).map OpenFile.handle

/-- Calls run one after another, and the operations they performed. -/
inductive Ran (X : Machine K.Ext) (w₀ : World K X.State) : Past (rtSig K) → World K X.State → Prop
  | start : Ran X w₀ [] w₀
  | call {past : Past (rtSig K)} {w w' : World K X.State} (c : Call K)
      (out : Except (Exit × Past (rtSig K)) (Reply × Past (rtSig K))) :
    Ran X w₀ past w → (c.prog.traced past).Exec (runtime X) w out w' → Ran X w₀ (whole out) w'

/-- The table lists exactly the handles `opened`, and their numbers count down. -/
structure Lists {H D : Type} (opened : List (OpenFile H)) (t : HandleTable H D) : Prop where
  sorted : opened.Pairwise fun a b => b.fh < a.fh
  below : ∀ e ∈ opened, e.fh < t.nextFh
  mem : ∀ e, e ∈ opened ↔ e.fh ∈ t.files.listed ∧
    ∃ r : HandleRecord H, t.files.records[e.fh]? = some r ∧ r.node = e.node ∧ r.payload = e.handle

/-! ## Sections that leave the listing alone -/

/-- What a record is bound to for good. -/
def HandleRecord.bound {P : Type} (r : HandleRecord P) : NodeId × P := (r.node, r.payload)

/-- The same numbers listed, on the same nodes and with the same payloads. -/
structure Handles.Alike {P : Type} (h h' : Handles P) : Prop where
  listed : h'.listed = h.listed
  record : ∀ k : Nat, h'.records[k]?.map HandleRecord.bound = h.records[k]?.map HandleRecord.bound

theorem Handles.Alike.put {P : Type} {h : Handles P} {fh : Nat} {r r' : HandleRecord P}
    (record : h.records[fh]? = some r) (bound : r'.bound = r.bound) : h.Alike (h.put fh r') := by
  refine ⟨rfl, fun k => ?_⟩
  rw [Handles.put_records]
  split
  · rename_i same
    rw [← same, record, Option.map_some, Option.map_some, bound]
  · rfl

theorem Handles.acquire_alike {P : Type} {h h' : Handles P} {fh : Nat} {r : Option (Option P)}
    (acquire : h.acquire fh = (r, h')) : h.Alike h' := by
  match r with
  | none =>
      rw [acquire_overflow acquire]
      exact ⟨rfl, fun _ => rfl⟩
  | some none =>
      rw [acquire_refused acquire]
      exact ⟨rfl, fun _ => rfl⟩
  | some (some payload) =>
      obtain ⟨r, record, -, -, rfl⟩ := acquire_granted acquire
      exact .put record rfl

/-- Only a release changes what is listed. -/
theorem Handles.step_alike {P : Type} {h h' : Handles P} {o : HandleOp} {r : o.Res P}
    (step : h.step o r h') (kept : ∀ ino fh, o ≠ .remove ino fh) : h.Alike h' := by
  have same : h.Alike h := ⟨rfl, fun _ => rfl⟩
  cases o with
  | find fh => rw [step.2]; exact same
  | acquire fh => exact acquire_alike step
  | scan ino =>
      have step : h.scanFrom ino h.listed.toList.reverse = (r, h') := step
      rcases scanFrom_cases (h := h) ino h.listed.toList.reverse with
        ⟨eq, -⟩ | eq | ⟨fh, payload, h₁, eq, acquire, -⟩
      · rw [eq] at step
        cases step
        exact same
      · rw [eq] at step
        cases step
        exact same
      · rw [eq] at step
        cases step
        exact acquire_alike acquire
  | unlease fh =>
      rw [show h' = h.unlease fh from step]
      unfold Handles.unlease
      split
      · exact same
      · rename_i record
        exact .put record rfl
  | remove ino fh => exact absurd rfl (kept ino fh)
  | close fh =>
      rw [show h' = h.close fh from step]
      unfold Handles.close
      split
      · exact same
      · rename_i record
        exact .put record rfl
  | take fh =>
      obtain ⟨r, record, -, -, rfl⟩ := take_eq_some step
      exact .put record rfl

/-! ## The listing along a run -/

namespace Lists

variable {H D : Type} {opened : List (OpenFile H)} {t : HandleTable H D}

theorem new : Lists [] (HandleTable.new : HandleTable H D) where
  sorted := List.Pairwise.nil
  below := nofun
  mem e := by simp [HandleTable.new, Handles.new]

theorem alike (lists : Lists opened t) {files : Handles H} (alike : t.files.Alike files) :
    Lists opened { t with files } where
  sorted := lists.sorted
  below := lists.below
  mem e := by
    rw [lists.mem, alike.listed]
    have bound : ∀ h : Handles H, (∃ r : HandleRecord H, h.records[e.fh]? = some r ∧
        r.node = e.node ∧ r.payload = e.handle) ↔
        h.records[e.fh]?.map HandleRecord.bound = some (e.node, e.handle) := fun h => by
      simp [Option.map_eq_some_iff, HandleRecord.bound]
    rw [bound, bound, alike.record]

theorem release (lists : Lists opened t) {ino fh : Nat} {files : Handles H}
    (removed : t.files.remove ino fh = (true, files)) :
    Lists (opened.filter (·.fh != fh)) { t with files } where
  sorted := lists.sorted.filter _
  below e mem := lists.below e (List.mem_of_mem_filter mem)
  mem e := by
    unfold Handles.remove at removed
    split at removed
    · cases removed
      simp only [List.mem_filter, lists.mem, ExtTreeSet.mem_erase, bne_iff_ne, ne_eq,
        Std.compare_eq_iff_eq]
      tauto
    · cases removed

theorem bind (lists : Lists opened t) {leases removed draining : Multiset Nat}
    (sound : t.files.Sound leases removed draining t.nextFh) (node : NodeId) (handle : H) :
    Lists (⟨t.nextFh, node, handle⟩ :: opened)
      { t with files := t.files.add t.nextFh node handle, nextFh := t.nextFh + 1 } where
  sorted := List.pairwise_cons.mpr ⟨lists.below, lists.sorted⟩
  below e mem := by
    rcases List.mem_cons.mp mem with rfl | mem
    · exact Nat.lt_succ_self _
    · exact (lists.below e mem).trans (Nat.lt_succ_self _)
  mem e := by
    obtain ⟨fh, node', handle'⟩ := e
    simp only [List.mem_cons, lists.mem, Handles.add, ExtTreeSet.mem_insert,
      ExtTreeMap.getElem?_insert, Std.compare_eq_iff_eq, OpenFile.mk.injEq]
    by_cases same : t.nextFh = fh
    · have fresh := sound.fresh
      rw [same] at fresh
      simp [same, fresh, HandleRecord.new, eq_comm]
    · simp [same, Ne.symm same]

end Lists

theorem Lists.step {past : Past (rtSig K)} {w w' : World K X.State} {T : Holdings} {o : RtOp K}
    {r : o.Res} (lists : Lists (openFiles past) w.handles) (inv : World.Inv False w T)
    (step : World.step X o w r w') : Lists (openFiles (past ++ [⟨o, r⟩])) w'.handles := by
  rw [openFiles_snoc]
  cases o with
  | cx o => rw [cxStep_handles step]; exact lists
  | file o =>
      obtain ⟨files, step, rfl⟩ := step
      match o, r with
      | .remove ino fh, true => exact lists.release step
      | .remove ino fh, false =>
          rw [Handles.remove_refused step]
          exact lists
      | .find _, _ | .acquire _, _ | .scan _, _ | .unlease _, _ | .close _, _ | .take _, _ =>
          exact lists.alike (Handles.step_alike step nofun)
  | dir o =>
      obtain ⟨dirs, -, rfl⟩ := step
      exact ⟨lists.sorted, lists.below, lists.mem⟩
  | addFile node handle =>
      obtain ⟨rfl, rfl⟩ := step
      unfold HandleTable.addFile
      split
      · rename_i add
        cases checkedAdd_eq_some add
        exact lists.bind inv.files node handle
      · exact lists
  | addDir node handle =>
      obtain ⟨rfl, rfl⟩ := step
      unfold HandleTable.addDir
      split
      · rename_i add
        cases checkedAdd_eq_some add
        exact ⟨lists.sorted, fun e mem => (lists.below e mem).trans (Nat.lt_succ_self _), lists.mem⟩
      · exact lists
  | dropRef _ | maybeDrop _ | removeOpen _ | offerDir _ _ | offerPlus _ _ => rw [step]; exact lists
  | get _ | retainLookup _ | generationOf _ | parentOf _ | beginForget _ _ | addOpen _ | hasOpens _ =>
      rw [step.2]; exact lists

/-- Between calls the table lists the handles still open, and the runtime's invariant holds. -/
theorem Ran.lists {root : K.Node} {x : X.State} {w₀ w : World K X.State} {past : Past (rtSig K)}
    (started : Started X root x w₀) (ran : Ran X w₀ past w) :
    Lists (openFiles past) w.handles ∧ ∃ T, World.Inv False w T := by
  induction ran with
  | start =>
      obtain ⟨inv, fresh⟩ := started.fresh
      rw [fresh]
      exact ⟨Lists.new, 0, inv⟩
  | call c out _ run ih =>
      obtain ⟨lists, T, inv⟩ := ih
      have safe := Request.safe_unlooked (X := X) c.fs c.request
      rw [← zero_add T] at inv
      refine ⟨safe.history (J := fun past (w : World K X.State) => Lists (openFiles past) w.handles)
        (fun lists inv step => lists.step inv step) inv run lists, ?_⟩
      obtain ⟨T', -, inv'⟩ := Safe.exec (safe.traced _) inv run
      exact ⟨_, inv'⟩

/-! ## The scan -/

namespace Lists

variable {H D : Type} {opened : List (OpenFile H)} {t : HandleTable H D}
  {leases removed draining : Multiset Nat}

theorem numbers (lists : Lists opened t) (sound : t.files.Sound leases removed draining t.nextFh) :
    t.files.listed.toList.reverse = opened.map OpenFile.fh := by
  have anti : ∀ a b : Nat, a ∈ t.files.listed.toList.reverse → b ∈ opened.map OpenFile.fh →
      b < a → a < b → a = b := fun a b _ _ lt gt => by omega
  refine List.Perm.eq_of_pairwise anti ?_ ?_ ?_
  · rw [List.pairwise_reverse]
    exact t.files.listed.ordered_toList.imp fun lt => Nat.compare_eq_lt.mp lt
  · rw [List.pairwise_map]
    exact lists.sorted
  · refine (List.perm_ext_iff_of_nodup ?_ ?_).mpr fun k => ?_
    · exact List.nodup_reverse.mpr (Handles.toList_nodup _)
    · rw [List.Nodup, List.pairwise_map]
      exact lists.sorted.imp fun lt => Nat.ne_of_gt lt
    · rw [List.mem_reverse, ExtTreeSet.mem_toList, List.mem_map]
      constructor
      · intro listed
        obtain ⟨r, record, -⟩ := sound.listed k listed
        exact ⟨⟨k, r.node, r.payload⟩, (lists.mem _).mpr ⟨listed, r, record, rfl, rfl⟩, rfl⟩
      · rintro ⟨e, mem, rfl⟩
        exact ((lists.mem e).mp mem).1

theorem find (lists : Lists opened t) {e : OpenFile H} (mem : e ∈ opened) :
    t.files.find e.fh = some e.node := by
  obtain ⟨listed, r, record, node, -⟩ := (lists.mem e).mp mem
  simp [Handles.find, listed, record, node]

/-- A handle still open can be leased, short of a lease count at its maximum. -/
theorem acquire (lists : Lists opened t) (sound : t.files.Sound leases removed draining t.nextFh)
    {e : OpenFile H} (mem : e ∈ opened) :
    (∃ files, t.files.acquire e.fh = (some (some e.handle), files)) ∨
      t.files.acquire e.fh = (none, t.files) := by
  obtain ⟨listed, r, record, node, payload⟩ := (lists.mem e).mp mem
  obtain ⟨r', record', closing⟩ := sound.listed e.fh listed
  rw [record] at record'
  cases record'
  unfold Handles.acquire
  rw [record]
  simp only [closing, Bool.false_eq_true, ↓reduceIte]
  cases checkedAdd 32 r.active with
  | none => exact .inr rfl
  | some n => exact .inl ⟨_, by rw [payload]⟩

theorem scanFrom (lists : Lists opened t)
    (sound : t.files.Sound leases removed draining t.nextFh) (ino : Nat)
    {tried : List (OpenFile H)} (sub : ∀ e ∈ tried, e ∈ opened) :
    (∃ granted files, t.files.scanFrom ino (tried.map OpenFile.fh) = (some granted, files) ∧
      granted.map Prod.snd = newestOn ino tried) ∨
    (t.files.scanFrom ino (tried.map OpenFile.fh) = (none, t.files) ∧
      ∃ e ∈ opened, e.node = ino ∧ (t.files.acquire e.fh).1 = none) := by
  unfold newestOn
  induction tried with
  | nil => exact .inl ⟨none, t.files, rfl, rfl⟩
  | cons e tried ih =>
      have isOpen : e ∈ opened := sub e List.mem_cons_self
      rw [List.map_cons, Handles.scanFrom, lists.find isOpen, List.find?_cons]
      by_cases same : e.node = ino
      · simp only [same, ↓reduceIte, beq_self_eq_true]
        rcases lists.acquire sound isOpen with ⟨files, granted⟩ | full
        · rw [granted]
          exact .inl ⟨_, files, rfl, rfl⟩
        · rw [full]
          exact .inr ⟨rfl, e, isOpen, same, congrArg Prod.fst full⟩
      · have other : (e.node == ino) = false := by simpa using same
        have apart : ¬some e.node = some ino := by simpa using same
        rw [if_neg apart, other]
        exact ih fun e' mem => sub e' (List.mem_cons_of_mem e mem)

/-- The scan leases the newest handle on `ino`, and finds none only if there is none. -/
theorem scan (lists : Lists opened t) (sound : t.files.Sound leases removed draining t.nextFh)
    (ino : Nat) : (∃ granted files, t.files.scan ino = (some granted, files) ∧
      granted.map Prod.snd = newestOn ino opened) ∨
    (t.files.scan ino = (none, t.files) ∧
      ∃ e ∈ opened, e.node = ino ∧ (t.files.acquire e.fh).1 = none) := by
  unfold Handles.scan
  rw [lists.numbers sound]
  exact lists.scanFrom sound ino fun _ mem => mem

/-- Without an open on the node there is no handle on it either. -/
theorem newestOn_eq_none (lists : Lists opened t) {ino : Nat} (none : ino ∉ t.files.nodes) :
    newestOn ino opened = Option.none := by
  unfold newestOn
  rw [Option.map_eq_none_iff, List.find?_eq_none]
  intro e mem same
  have same : e.node = ino := by simpa using same
  exact none (same ▸ Handles.mem_nodes (lists.find mem))

end Lists

/-! ## The handle a callback receives -/

/-- The world with a request's lease on `ino`. -/
def World.leased {Y : Type} (w : World K Y) (ino : Nat) : World K Y :=
  { w with table := (w.table.get ino).2 }

/-- A callback ran from `w`, up to a lease on a file handle. -/
def Called (X : Machine K.Ext) (cb : Callback K α) (w : World K X.State) (out : Except Exit α) :
    Prop :=
  ∃ files w', (Runtime.call cb).Exec (runtime X) { w with handles := { w.handles with files } } out w'

/-- How a request on the node `n` of `ino` with the handle number `fh` or none is served: which
handle its callback receives, given the handles still open. -/
inductive Served (X : Machine K.Ext) (fs : NodeFs K)
    (callback : K.Node → Option K.Handle → Callback K α) (opened : List (OpenFile K.Handle))
    (w : World K X.State) (ino : Nat) (n : K.Node) : Option Nat → Except Exit α → Prop
  | named {e : OpenFile K.Handle} {out : Except Exit α} : e ∈ opened → e.node = ino →
    Called X (callback n (some e.handle)) w out → Served X fs callback opened w ino n (some e.fh) out
  | unknown {fh : Nat} : (∀ e ∈ opened, e.fh = fh → e.node ≠ ino) →
    Served X fs callback opened w ino n (some fh) (.error (.errno .EBADF))
  | newest {w' : World K X.State} {out : Except Exit α} :
    (Runtime.callTotal (fs.wantsFallbackHandle n)).Exec (runtime X) w (.ok true) w' →
    Called X (callback n (newestOn ino opened)) w' out → Served X fs callback opened w ino n none out
  | declined {w' : World K X.State} {out : Except Exit α} :
    (Runtime.callTotal (fs.wantsFallbackHandle n)).Exec (runtime X) w (.ok false) w' →
    Called X (callback n none) w' out → Served X fs callback opened w ino n none out
  | unopened {out : Except Exit α} : newestOn ino opened = none →
    Called X (callback n none) w out → Served X fs callback opened w ino n none out
  | panicked {w' : World K X.State} :
    (Runtime.callTotal (fs.wantsFallbackHandle n)).Exec (runtime X) w (.error .panic) w' →
    Served X fs callback opened w ino n none (.error .panic)
  | full {fh : Option Nat} {e : OpenFile K.Handle} : e ∈ opened → e.node = ino →
    (w.handles.files.acquire e.fh).1 = none → Served X fs callback opened w ino n fh (.error .panic)

namespace Runtime

variable {w w' : World K X.State} {out : Except Exit α} {ino : Nat}

theorem withNode_inv {body : NodeRef K.Node → Action K α} {slot : Slot K.Node}
    (live : w.table.map[ino]? = some slot)
    (run : (withNode ino body).Exec (runtime X) w out w') :
    (out = .error .panic ∧ checkedAdd 32 slot.leases = none) ∨
      ∃ w₁, (body ⟨ino, slot.record⟩).Exec (runtime X) (w.leased ino) out w₁ := by
  rcases run.bind_inv with ⟨ref, w₁, got, rest⟩ | ⟨e, rfl, r, w₁, ⟨rfl, rfl⟩, rest⟩
  · obtain ⟨r, w₁', ⟨rfl, rfl⟩, rest'⟩ := got
    obtain ⟨-, w₂, ran, -⟩ := rest.finally_inv
    cases add : checkedAdd 32 slot.leases with
    | none =>
        simp only [NodeTable.get, live, add] at rest'
        cases rest'.1
    | some m =>
        have got : (w.table.get ino).1 = some (some ⟨ino, slot.record⟩) := by
          simp only [NodeTable.get, live, add]
        rw [got] at rest'
        obtain ⟨same, rfl⟩ := rest'
        cases same
        exact .inr ⟨w₂, ran⟩
  · cases add : checkedAdd 32 slot.leases with
    | none =>
        simp only [NodeTable.get, live, add] at rest
        obtain ⟨same, -⟩ := rest
        cases same
        exact .inl ⟨rfl, rfl⟩
    | some m =>
        simp only [NodeTable.get, live, add] at rest
        cases rest.1

theorem callTotal_inv {cb : TotalCallback K α}
    (run : (callTotal cb).Exec (runtime X) w out w') :
    w'.handles = w.handles ∧ ∀ e, out = .error e → e = .panic := by
  obtain ⟨ended, rfl, ran⟩ := run.mapExit_inv
  refine ⟨call_handles ran, fun e error => ?_⟩
  cases ended with
  | ok a => cases error
  | error p => exact (Except.error.inj error).symm

variable {fs : NodeFs K} {callback : K.Node → Option K.Handle → Callback K α} {n : K.Node}
  {opened : List (OpenFile K.Handle)} {T : Holdings}

/-- A number names the handle still open under it on this inode, or nothing. -/
theorem file_inv {out : Except Exit K.Handle} {fh : Nat} (lists : Lists opened w.handles)
    (inv : World.Inv False w T) (run : (file ino fh).Exec (runtime X) w out w') :
    (∃ e ∈ opened, e.fh = fh ∧ e.node = ino ∧
      ((out = .ok e.handle ∧ ∃ files, w' = { w with handles := { w.handles with files } }) ∨
        (out = .error .panic ∧ (w.handles.files.acquire e.fh).1 = none))) ∨
    ((∀ e ∈ opened, e.fh = fh → e.node ≠ ino) ∧ out = .error (.errno .EBADF)) := by
  obtain ⟨r, w₁, ⟨files, ⟨rfl, rfl⟩, rfl⟩, rest⟩ := run
  cases found : w.handles.files.find fh with
  | none =>
      rw [found] at rest
      refine .inr ⟨fun e mem same => ?_, rest.1⟩
      rw [← same, lists.find mem] at found
      cases found
  | some node =>
      obtain ⟨listed, record, eq, rfl⟩ := Handles.find_eq_some found
      have mem : ⟨fh, record.node, record.payload⟩ ∈ opened :=
        (lists.mem _).mpr ⟨listed, record, eq, rfl, rfl⟩
      rw [found] at rest
      have rest : Prog.Exec (runtime X) (if record.node ≠ ino then _ else _) w out w' := rest
      by_cases other : record.node ≠ ino
      · rw [if_pos other] at rest
        refine .inr ⟨fun e mem' same => ?_, rest.1⟩
        have there := lists.find mem'
        rw [same, found, Option.some_inj] at there
        exact there ▸ other
      · rw [if_neg other] at rest
        refine .inl ⟨_, mem, rfl, not_ne_iff.mp other, ?_⟩
        obtain ⟨r, w₂, ⟨files, acquire, rfl⟩, rest⟩ := rest
        have acquire : w.handles.files.acquire fh = (r, files) := acquire
        rcases lists.acquire inv.files mem with ⟨files', granted⟩ | full
        · rw [granted] at acquire
          cases acquire
          obtain ⟨rfl, rfl⟩ := rest
          exact .inl ⟨rfl, _, rfl⟩
        · rw [full] at acquire
          cases acquire
          exact .inr ⟨rest.1, congrArg Prod.fst full⟩

theorem named_served {fh : Nat} (lists : Lists opened w.handles) (inv : World.Inv False w T)
    (run : (withOptionalFile fs ino n (some fh) fun h => call (callback n h)).Exec (runtime X)
      w out w') : Served X fs callback opened w ino n (some fh) out := by
  rw [withOptionalFile_some] at run
  rcases run.bind_inv with ⟨handle, w₁, got, rest⟩ | ⟨e, rfl, got⟩
  · obtain ⟨-, w₂, ran, -⟩ := rest.finally_inv
    rcases file_inv lists inv got with
      ⟨e, mem, rfl, node, ⟨same, files, rfl⟩ | ⟨same, -⟩⟩ | ⟨-, same⟩
    · cases same
      exact .named mem node ⟨files, w₂, ran⟩
    · cases same
    · cases same
  · rcases file_inv lists inv got with
      ⟨e, mem, rfl, node, ⟨same, -⟩ | ⟨same, full⟩⟩ | ⟨none, same⟩
    · cases same
    · cases same
      exact .full mem node full
    · cases same
      exact .unknown none

/-- The runtime only skips the question when there is no handle to be found. -/
theorem newestOn_unopened (lists : Lists opened w.handles) (inv : World.Inv False w T)
    (closed : w.table.hasOpens ino = false) : newestOn ino opened = none := by
  refine lists.newestOn_eq_none fun mem => ?_
  have counted : ino ∈ T.opens + (w.handles.files.nodes + w.handles.dirs.nodes) := by simp [mem]
  obtain ⟨slot, live⟩ := inv.held.opened ino counted
  have opens := inv.held.opens ino slot live
  have some := Multiset.count_pos.mpr counted
  simp only [NodeTable.hasOpens, live, Option.any_some, decide_eq_false_iff_not] at closed
  omega

/-- How the choice of a fallback ends. -/
theorem optionalFile_inv {out : Except Exit (Option (Nat × K.Handle))}
    (lists : Lists opened w.handles) (inv : World.Inv False w T)
    (run : (optionalFile fs ino n none).Exec (runtime X) w out w') :
    (newestOn ino opened = none ∧ out = .ok none ∧ w' = w) ∨
    ((callTotal (fs.wantsFallbackHandle n)).Exec (runtime X) w (.ok false) w' ∧ out = .ok none) ∨
    (∃ w₁ granted files, (callTotal (fs.wantsFallbackHandle n)).Exec (runtime X) w (.ok true) w₁ ∧
      granted.map Prod.snd = newestOn ino opened ∧ out = .ok granted ∧
      w' = { w₁ with handles := { w₁.handles with files } }) ∨
    ((callTotal (fs.wantsFallbackHandle n)).Exec (runtime X) w (.error .panic) w' ∧
      out = .error .panic) ∨
    ((∃ e ∈ opened, e.node = ino ∧ (w.handles.files.acquire e.fh).1 = none) ∧
      out = .error .panic) := by
  obtain ⟨r, w₁, ⟨rfl, unchanged⟩, rest⟩ := run
  have unchanged : w = w₁ := Eq.symm unchanged
  subst unchanged
  cases asks : w.table.hasOpens ino with
  | false =>
      rw [asks] at rest
      exact .inl ⟨newestOn_unopened lists inv asks, rest.1, rest.2⟩
  | true =>
      rw [asks] at rest
      rcases Exec.bind_inv (p := callTotal _) rest with ⟨wants, w₁, asked, rest⟩ | ⟨e, rfl, asked⟩
      · obtain ⟨handles, -⟩ := callTotal_inv asked
        cases wants with
        | false =>
            obtain ⟨same, rfl⟩ := rest
            exact .inr (.inl ⟨asked, same⟩)
        | true =>
            obtain ⟨r, w₂, ⟨files, scan, rfl⟩, rest⟩ := rest
            have scan : w₁.handles.files.scan ino = (r, files) := scan
            rw [handles] at scan
            rcases lists.scan inv.files ino with ⟨granted, files', eq, newest⟩ | ⟨eq, full⟩
            · rw [eq] at scan
              cases scan
              obtain ⟨same, rfl⟩ := rest
              exact .inr (.inr (.inl ⟨w₁, granted, _, asked, newest, same, rfl⟩))
            · rw [eq] at scan
              cases scan
              exact .inr (.inr (.inr (.inr ⟨full, rest.1⟩)))
      · cases (callTotal_inv asked).2 e rfl
        exact .inr (.inr (.inr (.inl ⟨asked, rfl⟩)))

theorem fallback_served (lists : Lists opened w.handles) (inv : World.Inv False w T)
    (run : (withOptionalFile fs ino n none fun h => call (callback n h)).Exec (runtime X)
      w out w') : Served X fs callback opened w ino n none out := by
  rcases run.bind_inv with ⟨found, w₁, chosen, rest⟩ | ⟨e, rfl, chosen⟩
  · rcases optionalFile_inv lists inv chosen with ⟨none, same, rfl⟩ | ⟨asked, same⟩ |
      ⟨w₂, granted, files, asked, newest, same, rfl⟩ | ⟨-, same⟩ | ⟨-, same⟩
    · cases same
      exact .unopened none ⟨_, w', rest⟩
    · cases same
      exact .declined asked ⟨_, w', rest⟩
    · cases same
      refine .newest asked ?_
      rw [← newest]
      match found with
      | none => exact ⟨files, w', rest⟩
      | some (fh, handle) =>
          obtain ⟨-, w₃, ran, -⟩ := rest.finally_inv
          exact ⟨files, w₃, ran⟩
    · cases same
    · cases same
  · rcases optionalFile_inv lists inv chosen with ⟨-, same, -⟩ | ⟨-, same⟩ | ⟨_, _, _, -, -, same, -⟩ |
      ⟨asked, same⟩ | ⟨⟨e, mem, node, full⟩, same⟩
    · cases same
    · cases same
    · cases same
    · cases same
      exact .panicked asked
    · cases same
      exact .full mem node full

/-- What `getattr` and `setattr` have in common. -/
theorem served (lists : Lists opened w.handles) (inv : World.Inv False w T) {slot : Slot K.Node}
    (live : w.table.map[ino]? = some slot) {fh : Option Nat}
    (run : (withNode ino fun ref => withOptionalFile fs ino ref.record.payload fh fun h =>
      call (callback ref.record.payload h)).Exec (runtime X) w out w') :
    (out = .error .panic ∧ checkedAdd 32 slot.leases = none) ∨
      Served X fs callback opened (w.leased ino) ino slot.record.payload fh out := by
  rcases withNode_inv live run with full | ⟨w₁, ran⟩
  · exact .inl full
  · have inv' := inv.get ino
    match fh with
    | some fh => exact .inr (named_served lists inv' ran)
    | none => exact .inr (fallback_served lists inv' ran)

end Runtime

/-- After any calls, run one after another, a `getattr` or `setattr` on a live inode passes its
callback the handle its number names, or fails with `EBADF`; without a number, it passes the newest
handle still open on the inode if the filesystem wants one, and none if there is none or it does
not.  The other way out is a panic: the filesystem's own, or a lease count at its maximum. -/
theorem fallback_is_newest {root : K.Node} {x : X.State} {w₀ w w' : World K X.State}
    {past : Past (rtSig K)} (started : Started X root x w₀) (ran : Ran X w₀ past w) {ino : Nat}
    {slot : Slot K.Node} (live : w.table.map[ino]? = some slot) (fs : NodeFs K) (caller : Caller)
    (fh : Option Nat) (out : Except Exit NodeAttr) :
    ((Runtime.getattr fs ino caller fh).Exec (runtime X) w out w' →
      (out = .error .panic ∧ checkedAdd 32 slot.leases = none) ∨
      Served X fs (fun n h => fs.getattr n h caller) (openFiles past) (w.leased ino) ino
        slot.record.payload fh out) ∧
    ∀ set, (Runtime.setattr fs ino caller fh set).Exec (runtime X) w out w' →
      (out = .error .panic ∧ checkedAdd 32 slot.leases = none) ∨
      Served X fs (fun n h => fs.setattr n h set caller) (openFiles past) (w.leased ino) ino
        slot.record.payload fh out := by
  obtain ⟨lists, T, inv⟩ := ran.lists started
  refine ⟨fun run => ?_, fun set run => ?_⟩
  · exact @Runtime.served K X _ w w' out ino fs (fun n h => fs.getattr n h caller) _ T lists inv slot
      live fh run
  · exact @Runtime.served K X _ w w' out ino fs (fun n h => fs.setattr n h set caller) _ T lists inv
      slot live fh run

/-! ## A filesystem whose handles are numbers -/

abbrev numberTypes : FsTypes where
  Node := Unit
  Handle := Nat
  DirHandle := Unit
  Ext := ⟨Empty, fun e => nomatch e⟩

abbrev numberMachine : Machine numberTypes.Ext := ⟨Unit, fun e => nomatch e⟩

/-- A handle is the flags it was opened with, and `getattr` reports it as the size. -/
def numberFs : NodeFs numberTypes where
  «open» _ flags _ := .ret ⟨flags, {}⟩
  wantsFallbackHandle _ := .ret true
  getattr _ h _ := .ret ⟨.regularFile, h.getD 0, 1⟩

def numberExt (e : numberTypes.Ext.Op) (_ : Unit) : Option (numberTypes.Ext.Res e × Unit) := nomatch e

def numberExec (o : RtOp numberTypes) (w : World numberTypes Unit) :
    Option (o.Res × World numberTypes Unit) :=
  World.exec numberExt true o w

theorem numberExec_step (o : RtOp numberTypes) (w : World numberTypes Unit) (r : o.Res)
    (w' : World numberTypes Unit) (run : numberExec o w = some (r, w')) :
    (runtime numberMachine).step o w r w' :=
  World.exec_step (X := numberMachine) (fun e => nomatch e) run

/-- Calls played one after another. -/
def numberRun : List Request → Past (rtSig numberTypes) → World numberTypes Unit →
    Option (Past (rtSig numberTypes) × World numberTypes Unit)
  | [], past, w => some (past, w)
  | q :: rest, past, w =>
    ((q.run numberFs).traced past).play numberExec w >>= fun (out, w') =>
      numberRun rest (whole out) w'

theorem numberRun_ran {qs : List Request} {past past' : Past (rtSig numberTypes)}
    {w₀ w w' : World numberTypes Unit} (ran : Ran numberMachine w₀ past w)
    (run : numberRun qs past w = some (past', w')) : Ran numberMachine w₀ past' w' := by
  induction qs generalizing past w with
  | nil =>
      cases run
      exact ran
  | cons q rest ih =>
      obtain ⟨⟨out, w₁⟩, played, run⟩ := Option.bind_eq_some_iff.mp run
      exact ih (.call ⟨numberFs, q⟩ out ran (play_exec numberExec_step played)) run

/-- Three opens and a release of the last. -/
def numberRequests : List Request :=
  [.open 1 7 ⟨0, 0, 0, 0⟩, .open 1 8 ⟨0, 0, 0, 0⟩, .open 1 9 ⟨0, 0, 0, 0⟩, .release 1 3 ⟨0, 0, 0, 0⟩]

def numberPlayed : Past (rtSig numberTypes) × World numberTypes Unit :=
  (numberRun numberRequests [] (World.new () ())).getD ([], World.new () ())

/-- Then the second is the newest. -/
theorem numberPlayed_fallback : ∃ w' slot,
    Ran numberMachine (World.new () ()) numberPlayed.1 numberPlayed.2 ∧
    numberPlayed.2.table.map[1]? = some slot ∧ newestOn 1 (openFiles numberPlayed.1) = some 8 ∧
    (Runtime.getattr numberFs 1 ⟨0, 0, 0, 0⟩ none).Exec (runtime numberMachine) numberPlayed.2
      (.ok ⟨.regularFile, 8, 1⟩) w' ∧
    Served numberMachine numberFs (fun n h => numberFs.getattr n h ⟨0, 0, 0, 0⟩)
      (openFiles numberPlayed.1) (numberPlayed.2.leased 1) 1 slot.record.payload none
      (.ok ⟨.regularFile, 8, 1⟩) := by
  have ran : Ran numberMachine (World.new () ()) numberPlayed.1 numberPlayed.2 :=
    @numberRun_ran numberRequests _ _ _ _ _ .start rfl
  have live : numberPlayed.2.table.map[1]?.isSome = true := by decide
  obtain ⟨slot, live⟩ := Option.isSome_iff_exists.mp live
  obtain ⟨w', played⟩ : ∃ w', (Runtime.getattr numberFs 1 ⟨0, 0, 0, 0⟩ none).play numberExec
      numberPlayed.2 = some (.ok ⟨.regularFile, 8, 1⟩, w') := ⟨_, rfl⟩
  have exec := play_exec (M := runtime numberMachine) numberExec_step played
  refine ⟨w', slot, ran, live, rfl, exec, ?_⟩
  rcases (fallback_is_newest ⟨.ret (), rfl, rfl⟩ ran live numberFs ⟨0, 0, 0, 0⟩ none _).1 exec with
    ⟨panic, -⟩ | served
  · cases panic
  · exact served

end TypedFuse
