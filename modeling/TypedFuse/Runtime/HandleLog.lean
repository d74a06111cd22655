import TypedFuse.Runtime.Protocol

/-!
# The history of one map of the handle table

`HandleEvent` is what happens to one map of the handle table: a number is issued for a new record,
or a thread performs a section.  `LogOf` ties the history to the table it leads to; it is kept by
every section whose guard holds, and it decides what the next event can be (`Lawful`): a lease is
only granted on the record issued under its number and not yet emptied, and a payload is only moved
out once, when every lease granted on its record has been given back.
-/

namespace TypedFuse

open Std Prog

variable {P : Type}

/-- One event of a map of the handle table. -/
inductive HandleEvent (P : Type)
  | issued (fh : Nat) (node : NodeId) (payload : P)
  | done (thread : Nat) (o : HandleOp) (r : o.Res P)

namespace HandleEvent

/-- The number and the node an event has found together in the table. -/
def checked : HandleEvent P → Option (Nat × NodeId)
  | .done _ (.find fh) (some node) => some (fh, node)
  | .done _ (.scan ino) (some (some (fh, _))) => some (fh, ino)
  | .done _ (.remove ino fh) true => some (fh, ino)
  | _ => none

/-- The lease an event grants: its number and the payload lent. -/
def lease : HandleEvent P → Option (Nat × P)
  | .done _ (.acquire fh) (some (some payload)) => some (fh, payload)
  | .done _ (.scan _) (some (some granted)) => some granted
  | _ => none

/-- The number of the lease an event gives back. -/
def returned : HandleEvent P → Option Nat
  | .done _ (.unlease fh) _ => some fh
  | _ => none

/-- The payload an event moves out, with its number. -/
def moved : HandleEvent P → Option (Nat × P)
  | .done _ (.take fh) payload => some (fh, payload)
  | _ => none

end HandleEvent

/-- How many leases on `fh` have been granted. -/
def leasesGranted (log : List (HandleEvent P)) (fh : Nat) : Nat :=
  log.countP fun e => e.lease.map Prod.fst = some fh

/-- How many have been given back. -/
def leasesReturned (log : List (HandleEvent P)) (fh : Nat) : Nat :=
  log.countP fun e => e.returned = some fh

/-- The payload of `fh` has been moved out. -/
def MovedOut (log : List (HandleEvent P)) (fh : Nat) : Prop :=
  ∃ e ∈ log, e.moved.map Prod.fst = some fh

/-- What an event can be, given the events before it. -/
structure Lawful (log : List (HandleEvent P)) (e : HandleEvent P) : Prop where
  issued : ∀ fh node payload, e = .issued fh node payload →
    ∀ node' payload', .issued fh node' payload' ∉ log
  checked : ∀ fh node, e.checked = some (fh, node) → ∃ payload, .issued fh node payload ∈ log
  lease : ∀ fh payload, e.lease = some (fh, payload) →
    (∃ node, .issued fh node payload ∈ log) ∧ ¬MovedOut log fh
  moved : ∀ fh payload, e.moved = some (fh, payload) →
    (∃ node, .issued fh node payload ∈ log) ∧ ¬MovedOut log fh ∧
      leasesGranted log fh = leasesReturned log fh

/-- The leases alive on the record of `fh`. -/
def Handles.activeOn (h : Handles P) (fh : Nat) : Nat := h.records[fh]?.elim 0 HandleRecord.active

/-- The payload of `fh` is gone. -/
def Handles.emptied (h : Handles P) (fh : Nat) : Bool := h.records[fh]?.any HandleRecord.taken

/-- The table is the one this history leads to. -/
structure LogOf (log : List (HandleEvent P)) (h : Handles P) : Prop where
  record : ∀ (fh : Nat) (r : HandleRecord P), h.records[fh]? = some r →
    .issued fh r.node r.payload ∈ log
  issued : ∀ fh node payload, .issued fh node payload ∈ log →
    ∃ r : HandleRecord P, h.records[fh]? = some r ∧ r.node = node ∧ r.payload = payload
  active : ∀ fh, leasesGranted log fh = leasesReturned log fh + h.activeOn fh
  moved : ∀ fh, MovedOut log fh ↔ h.emptied fh = true
  taken : ∀ (fh : Nat) (r : HandleRecord P), h.records[fh]? = some r → r.taken = true →
    r.closing = true

namespace LogOf

variable {log : List (HandleEvent P)} {h h' : Handles P} {fh thread : Nat} {r r' : HandleRecord P}
  {e : HandleEvent P}

theorem new : LogOf [] (Handles.new : Handles P) := by
  constructor <;> intros <;> simp_all [Handles.new, MovedOut, Handles.activeOn, Handles.emptied,
    leasesGranted, leasesReturned]

theorem issued_eq (logged : LogOf log h) {node node' : NodeId} {payload payload' : P}
    (one : .issued fh node payload ∈ log) (other : .issued fh node' payload' ∈ log) :
    node = node' ∧ payload = payload' := by
  obtain ⟨r, record, rfl, rfl⟩ := logged.issued _ _ _ one
  obtain ⟨s, record', rfl, rfl⟩ := logged.issued _ _ _ other
  rw [record] at record'
  cases record'
  exact ⟨rfl, rfl⟩

theorem movedOut_snoc {k : Nat} :
    MovedOut (log ++ [e]) k ↔ MovedOut log k ∨ e.moved.map Prod.fst = some k := by
  simp only [MovedOut, List.mem_append, List.mem_singleton, or_and_right, exists_or,
    exists_eq_left]

theorem leasesGranted_snoc {k : Nat} : leasesGranted (log ++ [e]) k =
    leasesGranted log k + if e.lease.map Prod.fst = some k then 1 else 0 := by
  simp only [leasesGranted, List.countP_append, List.countP_cons, List.countP_nil, zero_add,
    decide_eq_true_eq]

theorem leasesReturned_snoc {k : Nat} : leasesReturned (log ++ [e]) k =
    leasesReturned log k + if e.returned = some k then 1 else 0 := by
  simp only [leasesReturned, List.countP_append, List.countP_cons, List.countP_nil, zero_add,
    decide_eq_true_eq]

/-- A new record under a new number. -/
theorem add (logged : LogOf log h) {node : NodeId} {payload : P}
    (fresh : h.records[fh]? = none) :
    LogOf (log ++ [.issued fh node payload]) (h.add fh node payload) ∧
      Lawful log (.issued fh node payload) := by
  have records : ∀ k, (h.add fh node payload).records[k]? =
      if fh = k then some (HandleRecord.new node payload) else h.records[k]? := fun k => by
    simp [Handles.add, ExtTreeMap.getElem?_insert]
  have unissued : ∀ node' payload', .issued fh node' payload' ∉ log := by
    intro node' payload' mem
    obtain ⟨r, record, -⟩ := logged.issued _ _ _ mem
    rw [fresh] at record
    cases record
  refine ⟨?_, ?_⟩
  · constructor
    case record =>
        intro k r record
        rw [records] at record
        split at record
        · rename_i same
          cases record
          subst same
          exact List.mem_append_right _ (List.mem_singleton.mpr rfl)
        · exact List.mem_append_left _ (logged.record k r record)
    case issued =>
        intro k node' payload' mem
        rcases List.mem_append.mp mem with mem | mem
        · obtain ⟨r, record, same⟩ := logged.issued _ _ _ mem
          refine ⟨r, ?_, same⟩
          rw [records, if_neg (fun same => by rw [same, record] at fresh; cases fresh), record]
        · cases List.mem_singleton.mp mem
          exact ⟨_, by rw [records, if_pos rfl], rfl, rfl⟩
    case active =>
        intro k
        have active := logged.active k
        rw [leasesGranted_snoc, leasesReturned_snoc, if_neg (by simp [HandleEvent.lease]),
          if_neg (by simp [HandleEvent.returned])]
        unfold Handles.activeOn at active ⊢
        rw [records]
        by_cases same : fh = k
        · subst same
          rw [fresh] at active
          rw [if_pos rfl]
          exact active
        · rw [if_neg same]
          exact active
    case moved =>
        intro k
        rw [movedOut_snoc, logged.moved]
        unfold Handles.emptied
        rw [records]
        by_cases same : fh = k
        · subst same
          simp [fresh, HandleRecord.new, HandleEvent.moved]
        · rw [if_neg same]
          simp [HandleEvent.moved]
    case taken =>
        intro k r record taken
        rw [records] at record
        split at record
        · cases record
          cases taken
        · exact logged.taken k r record taken
  · constructor
    case issued =>
        intro k node' payload' eq
        cases eq
        exact unissued
    case checked =>
        intro _ _ eq
        cases eq
    case lease =>
        intro _ _ eq
        cases eq
    case moved =>
        intro _ _ eq
        cases eq

/-! ## Sections -/

/-- What an event does to the record of `k`. -/
structure Evolves (e : HandleEvent P) (h h' : Handles P) (k : Nat) : Prop where
  bound : h'.records[k]?.map (fun r => (r.node, r.payload)) =
    h.records[k]?.map fun r => (r.node, r.payload)
  active : h.activeOn k + (if e.lease.map Prod.fst = some k then 1 else 0) =
    (if e.returned = some k then 1 else 0) + h'.activeOn k
  emptied : h'.emptied k = true ↔ h.emptied k = true ∨ e.moved.map Prod.fst = some k
  taken : ∀ r : HandleRecord P, h'.records[k]? = some r → r.taken = true → r.closing = true

theorem evolve {o : HandleOp} {res : o.Res P} (logged : LogOf log h)
    (evolves : ∀ k, Evolves (.done thread o res) h h' k) :
    LogOf (log ++ [.done thread o res]) h' where
  record k r record := by
    have bound := (evolves k).bound
    rw [record, Option.map_some] at bound
    obtain ⟨s, record', same⟩ := Option.map_eq_some_iff.mp bound.symm
    obtain ⟨node, payload⟩ := Prod.mk.inj same
    exact List.mem_append_left _ (node ▸ payload ▸ logged.record k s record')
  issued k node payload mem := by
    rcases List.mem_append.mp mem with mem | mem
    · obtain ⟨r, record, rfl, rfl⟩ := logged.issued _ _ _ mem
      have bound := (evolves k).bound
      rw [record, Option.map_some] at bound
      obtain ⟨s, record', same⟩ := Option.map_eq_some_iff.mp bound
      exact ⟨s, record', Prod.mk.inj same⟩
    · cases List.mem_singleton.mp mem
  active k := by
    have before := logged.active k
    have step := (evolves k).active
    rw [leasesGranted_snoc, leasesReturned_snoc]
    omega
  moved k := by rw [movedOut_snoc, logged.moved, (evolves k).emptied]
  taken k := (evolves k).taken

/-- An event that leaves the records alone. -/
theorem Evolves.idle (logged : LogOf log h) (records : h'.records = h.records)
    (lease : e.lease = none) (returned : e.returned = none) (moved : e.moved = none) (k : Nat) :
    Evolves e h h' k where
  bound := by rw [records]
  active := by
    unfold Handles.activeOn
    rw [records, lease, returned]
    simp
  emptied := by
    unfold Handles.emptied
    rw [records, moved]
    simp
  taken r record := logged.taken k r (records ▸ record)

/-- An event that rewrites one record. -/
theorem Evolves.put (logged : LogOf log h) (record : h.records[fh]? = some r)
    (node : r'.node = r.node) (payload : r'.payload = r.payload)
    (active : r.active + (if e.lease.map Prod.fst = some fh then 1 else 0) =
      (if e.returned = some fh then 1 else 0) + r'.active)
    (taken : r'.taken = true ↔ r.taken = true ∨ e.moved.map Prod.fst = some fh)
    (closing : r'.taken = true → r'.closing = true)
    (others : ∀ k, k ≠ fh → e.lease.map Prod.fst ≠ some k ∧ e.returned ≠ some k ∧
      e.moved.map Prod.fst ≠ some k) (k : Nat) :
    Evolves e h (h.put fh r') k := by
  by_cases same : fh = k
  · subst same
    have record' : (h.put fh r').records[fh]? = some r' := by rw [Handles.put_records, if_pos rfl]
    constructor
    case bound => rw [record, record', Option.map_some, Option.map_some, node, payload]
    case active =>
        unfold Handles.activeOn
        rw [record, record']
        exact active
    case emptied =>
        unfold Handles.emptied
        rw [record, record']
        exact taken
    case taken =>
        intro s eq
        rw [record'] at eq
        cases eq
        exact closing
  · have record' : (h.put fh r').records[k]? = h.records[k]? := by
      rw [Handles.put_records, if_neg same]
    obtain ⟨lease, returned, moved⟩ := others k (Ne.symm same)
    constructor
    case bound => rw [record']
    case active =>
        unfold Handles.activeOn
        rw [record', if_neg lease, if_neg returned]
        omega
    case emptied =>
        unfold Handles.emptied
        rw [record']
        simp [moved]
    case taken =>
        intro s eq
        rw [record'] at eq
        exact logged.taken k s eq

/-- A lease granted on an open record. -/
theorem lend {payload : P} (logged : LogOf log h)
    (acquire : h.acquire fh = (some (some payload), h')) (lease : e.lease = some (fh, payload))
    (returned : e.returned = none) (moved : e.moved = none) :
    (∀ k, Evolves e h h' k) ∧ (∃ node, .issued fh node payload ∈ log) ∧ ¬MovedOut log fh := by
  obtain ⟨r, record, open_, rfl, rfl⟩ := Handles.acquire_granted acquire
  refine ⟨Evolves.put logged record rfl rfl ?_ ?_ ?_ ?_, ⟨_, logged.record fh r record⟩, ?_⟩
  · rw [lease, returned]
    simp
  · simp [moved]
  · exact logged.taken fh r record
  · intro k other
    rw [lease, returned, moved]
    simpa using other.symm
  · rw [logged.moved, Handles.emptied, record]
    intro taken
    have closing := logged.taken fh r record taken
    rw [open_] at closing
    cases closing

/-- What the table shows under a number was issued under it. -/
theorem shown (logged : LogOf log h) {node : NodeId} (found : h.find fh = some node) :
    ∃ payload, .issued fh node payload ∈ log := by
  obtain ⟨-, r, record, rfl⟩ := Handles.find_eq_some found
  exact ⟨_, logged.record fh r record⟩

/-- A section that neither grants a lease nor moves a payload out. -/
theorem lawful_of_none {o : HandleOp} {res : o.Res P}
    (checked : ∀ k node, (HandleEvent.done thread o res).checked = some (k, node) →
      ∃ payload, .issued k node payload ∈ log)
    (lease : (HandleEvent.done thread o res).lease = none)
    (moved : (HandleEvent.done thread o res).moved = none) : Lawful log (.done thread o res) where
  issued _ _ _ eq := nomatch eq
  checked := checked
  lease _ _ eq := by rw [lease] at eq; cases eq
  moved _ _ eq := by rw [moved] at eq; cases eq

/-- One that moreover leaves the records alone. -/
theorem idle {o : HandleOp} {res : o.Res P} (logged : LogOf log h)
    (records : h'.records = h.records)
    (checked : ∀ k node, (HandleEvent.done thread o res).checked = some (k, node) →
      ∃ payload, .issued k node payload ∈ log)
    (lease : (HandleEvent.done thread o res).lease = none)
    (returned : (HandleEvent.done thread o res).returned = none)
    (moved : (HandleEvent.done thread o res).moved = none) :
    LogOf (log ++ [.done thread o res]) h' ∧ Lawful log (.done thread o res) :=
  ⟨logged.evolve (Evolves.idle logged records lease returned moved),
    lawful_of_none checked lease moved⟩

/-- Every section whose guard holds keeps the history and is lawful. -/
theorem section_ {o : HandleOp} {res : o.Res P} (logged : LogOf log h) (guard : h.Guard o)
    (step : h.step o res h') :
    LogOf (log ++ [.done thread o res]) h' ∧ Lawful log (.done thread o res) := by
  cases o with
  | find fh =>
      obtain ⟨rfl, rfl⟩ := step
      refine logged.idle rfl (fun k node eq => ?_) rfl rfl rfl
      cases found : h'.find fh with
      | none =>
          rw [found] at eq
          cases eq
      | some node' =>
          rw [found] at eq
          cases eq
          exact logged.shown found
  | acquire fh =>
      match res, step with
      | none, step =>
          cases Handles.acquire_overflow step
          exact logged.idle rfl nofun rfl rfl rfl
      | some none, step =>
          cases Handles.acquire_refused step
          exact logged.idle rfl nofun rfl rfl rfl
      | some (some payload), step =>
          obtain ⟨evolves, issued, full⟩ := logged.lend step
            (e := .done thread (.acquire fh) (some (some payload))) rfl rfl rfl
          refine ⟨logged.evolve evolves, nofun, nofun, fun k payload' eq => ?_, nofun⟩
          cases eq
          exact ⟨issued, full⟩
  | scan ino =>
      have step : h.scan ino = (res, h') := step
      unfold Handles.scan at step
      rcases Handles.scanFrom_cases ino h.listed.toList.reverse with
        ⟨eq, -⟩ | eq | ⟨fh, payload, h₁, eq, acquire, found⟩
      · rw [eq] at step
        cases step
        exact logged.idle rfl nofun rfl rfl rfl
      · rw [eq] at step
        cases step
        exact logged.idle rfl nofun rfl rfl rfl
      · rw [eq] at step
        cases step
        obtain ⟨evolves, issued, full⟩ := logged.lend acquire
          (e := .done thread (.scan ino) (some (some (fh, payload)))) rfl rfl rfl
        refine ⟨logged.evolve evolves, nofun, fun k node eq => ?_, fun k payload' eq => ?_, nofun⟩
        · cases eq
          exact logged.shown found
        · cases eq
          exact ⟨issued, full⟩
  | unlease fh =>
      obtain ⟨r, record, active⟩ := guard
      cases step
      refine ⟨logged.evolve ?_, lawful_of_none nofun rfl rfl⟩
      unfold Handles.unlease
      rw [record]
      refine Evolves.put logged record rfl rfl ?_ ?_ (logged.taken fh r record) ?_
      · simp only [HandleEvent.lease, HandleEvent.returned, Option.map_none, reduceCtorEq, ↓reduceIte]
        omega
      · simp [HandleEvent.moved]
      · intro k other
        simpa [HandleEvent.lease, HandleEvent.moved, HandleEvent.returned] using other.symm
  | remove ino fh =>
      have step : h.remove ino fh = (res, h') := step
      unfold Handles.remove at step
      split at step
      · rename_i found
        cases step
        refine logged.idle rfl (fun k node eq => ?_) rfl rfl rfl
        cases eq
        exact logged.shown found
      · cases step
        exact logged.idle rfl nofun rfl rfl rfl
  | close fh =>
      cases step
      refine ⟨logged.evolve ?_, lawful_of_none nofun rfl rfl⟩
      unfold Handles.close
      split
      · exact Evolves.idle logged rfl rfl rfl rfl
      · rename_i r record
        refine Evolves.put logged record rfl rfl ?_ ?_ (fun _ => rfl) ?_
        · simp [HandleEvent.lease, HandleEvent.returned]
        · simp [HandleEvent.moved]
        · intro k other
          simp [HandleEvent.lease, HandleEvent.moved, HandleEvent.returned]
  | take fh =>
      obtain ⟨r, record, drained, rfl, rfl⟩ := Handles.take_eq_some step
      obtain ⟨s, record', closing, full⟩ := guard
      rw [record] at record'
      cases record'
      refine ⟨logged.evolve (Evolves.put logged record rfl rfl ?_ ?_ (fun _ => closing) ?_),
        nofun, nofun, nofun, fun k payload eq => ?_⟩
      · simp [HandleEvent.lease, HandleEvent.returned]
      · simp [HandleEvent.moved]
      · intro k other
        simpa [HandleEvent.lease, HandleEvent.moved, HandleEvent.returned] using other.symm
      · cases eq
        refine ⟨⟨_, logged.record fh r record⟩, ?_, ?_⟩
        · rw [logged.moved, Handles.emptied, record]
          simp [full]
        · rw [logged.active, Handles.activeOn, record]
          show leasesReturned log fh + r.active = _
          omega

end LogOf

/-! ## Whole histories -/

/-- Every event is lawful after those before it. -/
def AllLawful (log : List (HandleEvent P)) : Prop :=
  ∀ l₁ e l₂, log = l₁ ++ e :: l₂ → Lawful l₁ e

theorem AllLawful.nil : AllLawful ([] : List (HandleEvent P)) := by
  intro l₁ e l₂ eq
  cases l₁ <;> cases eq

theorem AllLawful.snoc {log : List (HandleEvent P)} {e : HandleEvent P} (all : AllLawful log)
    (lawful : Lawful log e) : AllLawful (log ++ [e]) := by
  intro l₁ e' l₂ eq
  rcases List.eq_nil_or_concat l₂ with rfl | ⟨l₃, last, rfl⟩
  · obtain ⟨rfl, same⟩ := List.append_inj' eq rfl
    cases same
    exact lawful
  · rw [List.concat_eq_append, ← List.cons_append, ← List.append_assoc] at eq
    obtain ⟨init, -⟩ := List.append_inj' eq rfl
    exact all l₁ e' l₃ init

theorem AllLawful.mem {log : List (HandleEvent P)} {e : HandleEvent P} (all : AllLawful log)
    (mem : e ∈ log) : ∃ l₁, l₁ <+: log ∧ Lawful l₁ e := by
  obtain ⟨l₁, l₂, eq⟩ := List.append_of_mem mem
  exact ⟨l₁, eq ▸ List.prefix_append _ _, all l₁ e l₂ eq⟩

end TypedFuse
