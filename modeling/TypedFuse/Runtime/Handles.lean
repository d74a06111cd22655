import Mathlib.Algebra.Order.Group.Multiset
import Std.Data.ExtTreeMap
import Std.Data.ExtTreeSet
import TypedFuse.Core.Types

/-!
# The handle table

`HandleState`, `HandleRecord`, `HandleLease` and `HandleTable` of `runtime.rs`, with the critical
sections on them.  A record is an `Arc` and outlives its place in the table, so `Handles` keeps
every record by the number it was made under, beside the numbers the table lists now.

`Handles.Sound` is what the sections keep in any order, given the leases alive (`leases`) and the
records that a release has taken out of the table and not yet emptied (`closing`).
-/

namespace TypedFuse

open Std

variable {P : Type}

/-- An open handle, the node it was opened on, and its lease bookkeeping. -/
structure HandleRecord (P : Type) where
  node : NodeId
  payload : P
  active : Nat
  closing : Bool
  taken : Bool

def HandleRecord.new (node : NodeId) (payload : P) : HandleRecord P where
  node := node
  payload := payload
  active := 0
  closing := false
  taken := false

/-- The numbers one map of the table lists, and all its records. -/
structure Handles (P : Type) where
  listed : ExtTreeSet Nat
  records : ExtTreeMap Nat (HandleRecord P)

namespace Handles

def new : Handles P := ⟨∅, ∅⟩

def put (h : Handles P) (fh : Nat) (r : HandleRecord P) : Handles P :=
  { h with records := h.records.insert fh r }

/-- `files.insert(fh, Arc::new(HandleRecord::new(node, payload)))`. -/
def add (h : Handles P) (fh : Nat) (node : NodeId) (payload : P) : Handles P where
  listed := h.listed.insert fh
  records := h.records.insert fh (HandleRecord.new node payload)

/-- The node of the record listed under `fh`. -/
def find (h : Handles P) (fh : Nat) : Option NodeId :=
  if fh ∈ h.listed then h.records[fh]?.map HandleRecord.node else none

/-- `HandleRecord::acquire`; `none` is the overflow panic, `some none` a closing record. -/
def acquire (h : Handles P) (fh : Nat) : Option (Option P) × Handles P :=
  match h.records[fh]? with
  | none => (some none, h)
  | some r =>
    if r.closing then (some none, h)
    else
      match checkedAdd 32 r.active with
      | some n => (some (some r.payload), h.put fh { r with active := n })
      | none => (none, h)

/-- The records of `numbers` on `ino`, tried in turn. -/
def scanFrom (h : Handles P) (ino : Nat) : List Nat → Option (Option (Nat × P)) × Handles P
  | [] => (some none, h)
  | fh :: rest =>
    if h.find fh = some ino then
      match h.acquire fh with
      | (some (some payload), h') => (some (some (fh, payload)), h')
      | (some none, _) => h.scanFrom ino rest
      | (none, _) => (none, h)
    else h.scanFrom ino rest

/-- The scan of `optional_file`: newest first. -/
def scan (h : Handles P) (ino : Nat) : Option (Option (Nat × P)) × Handles P :=
  h.scanFrom ino h.listed.toList.reverse

/-- `HandleLease::drop`. -/
def unlease (h : Handles P) (fh : Nat) : Handles P :=
  match h.records[fh]? with
  | none => h
  | some r => h.put fh { r with active := r.active - 1 }

/-- The first section of `release`; `false` is its `EBADF`. -/
def remove (h : Handles P) (ino fh : Nat) : Bool × Handles P :=
  if h.find fh = some ino then (true, { h with listed := h.listed.erase fh }) else (false, h)

/-- The start of `close_and_take`. -/
def close (h : Handles P) (fh : Nat) : Handles P :=
  match h.records[fh]? with
  | none => h
  | some r => h.put fh { r with closing := true }

/-- The end of `close_and_take`, which waits for the leases to drain. -/
def take (h : Handles P) (fh : Nat) : Option (P × Handles P) :=
  match h.records[fh]? with
  | none => none
  | some r => if r.active = 0 then some (r.payload, h.put fh { r with taken := true }) else none

end Handles

/-- Files and directories share one number sequence. -/
structure HandleTable (H D : Type) where
  files : Handles H
  dirs : Handles D
  nextFh : Nat

namespace HandleTable

variable {H D : Type}

def new : HandleTable H D := ⟨.new, .new, 1⟩

def addFile (t : HandleTable H D) (node : NodeId) (handle : H) : Option Nat × HandleTable H D :=
  match checkedAdd 64 t.nextFh with
  | some next => (some t.nextFh, { t with files := t.files.add t.nextFh node handle, nextFh := next })
  | none => (none, t)

def addDir (t : HandleTable H D) (node : NodeId) (handle : D) : Option Nat × HandleTable H D :=
  match checkedAdd 64 t.nextFh with
  | some next => (some t.nextFh, { t with dirs := t.dirs.add t.nextFh node handle, nextFh := next })
  | none => (none, t)

end HandleTable

namespace Handles

variable {h h' : Handles P} {fh k : Nat} {r r' : HandleRecord P}

theorem put_records : (h.put fh r).records[k]? = if fh = k then some r else h.records[k]? := by
  simp [put, ExtTreeMap.getElem?_insert]

@[simp] theorem put_listed : (h.put fh r).listed = h.listed := rfl

/-- The node of each listed record. -/
def nodes (h : Handles P) : Multiset NodeId :=
  (h.listed.toList : Multiset Nat).filterMap fun fh => h.records[fh]?.map HandleRecord.node

theorem toList_nodup (s : ExtTreeSet Nat) : s.toList.Nodup :=
  s.distinct_toList.imp fun h same => h (by rw [same]; exact compare_self)

theorem toList_insert {s : ExtTreeSet Nat} (fresh : fh ∉ s) :
    ((s.insert fh).toList : Multiset Nat) = fh ::ₘ (s.toList : Multiset Nat) := by
  rw [Multiset.cons_coe, Multiset.coe_eq_coe]
  refine (List.perm_ext_iff_of_nodup (toList_nodup _)
    (List.nodup_cons.mpr ⟨by simpa using fresh, toList_nodup s⟩)).mpr fun k => ?_
  rw [ExtTreeSet.mem_toList, ExtTreeSet.mem_insert, Std.compare_eq_iff_eq, List.mem_cons,
    ExtTreeSet.mem_toList, eq_comm]

theorem toList_erase {s : ExtTreeSet Nat} (mem : fh ∈ s) :
    (s.toList : Multiset Nat) = fh ::ₘ ((s.erase fh).toList : Multiset Nat) := by
  rw [Multiset.cons_coe, Multiset.coe_eq_coe]
  refine (List.perm_ext_iff_of_nodup (toList_nodup _)
    (List.nodup_cons.mpr ⟨by simp, toList_nodup _⟩)).mpr fun k => ?_
  by_cases same : fh = k
  · simp [← same, mem]
  · simp [same, Ne.symm same]

theorem nodes_congr (listed : h'.listed = h.listed)
    (same : ∀ k ∈ h.listed, h'.records[k]?.map HandleRecord.node =
      h.records[k]?.map HandleRecord.node) : h'.nodes = h.nodes := by
  unfold nodes
  rw [listed]
  simp only [Multiset.filterMap_coe, Multiset.coe_eq_coe]
  refine List.Perm.of_eq (List.filterMap_congr fun k mem => same k ?_)
  simpa using mem

theorem nodes_put (record : h.records[fh]? = some r) (node : r'.node = r.node) :
    (h.put fh r').nodes = h.nodes := by
  refine nodes_congr rfl fun k _ => ?_
  rw [put_records]
  split
  · rename_i same
    rw [← same, record, Option.map_some, Option.map_some, node]
  · rfl

theorem nodes_add {node : NodeId} {payload : P} (fresh : fh ∉ h.listed) :
    (h.add fh node payload).nodes = node ::ₘ h.nodes := by
  unfold nodes
  simp only [add]
  rw [toList_insert fresh, Multiset.filterMap_cons_some _ _ _
    (by rw [ExtTreeMap.getElem?_insert_self]; rfl)]
  congr 1
  simp only [Multiset.filterMap_coe, Multiset.coe_eq_coe]
  refine List.Perm.of_eq (List.filterMap_congr fun k mem => ?_)
  have other : fh ≠ k := fun same => fresh (by rw [same]; simpa using mem)
  simp [ExtTreeMap.getElem?_insert, other]

theorem nodes_erase (listed : fh ∈ h.listed) (record : h.records[fh]? = some r) :
    h.nodes = r.node ::ₘ { h with listed := h.listed.erase fh }.nodes := by
  unfold nodes
  rw [toList_erase listed, Multiset.filterMap_cons_some _ _ _ (by rw [record]; rfl)]

theorem find_eq_some {node : NodeId} (found : h.find fh = some node) :
    fh ∈ h.listed ∧ ∃ r : HandleRecord P, h.records[fh]? = some r ∧ r.node = node := by
  unfold Handles.find at found
  split at found
  · obtain ⟨r, record, eq⟩ := Option.map_eq_some_iff.mp found
    exact ⟨‹_›, r, record, eq⟩
  · cases found

/-! ## What the sections keep -/

/-- The counts of the records are the leases alive, a listed record is open, and the releases at
work have a record each, all to themselves: `removed` before they close it, `draining` after. -/
structure Sound (h : Handles P) (leases removed draining : Multiset Nat) (nextFh : Nat) : Prop where
  listed : ∀ fh ∈ h.listed, ∃ r : HandleRecord P, h.records[fh]? = some r ∧ r.closing = false
  lt : ∀ (fh : Nat) (r : HandleRecord P), h.records[fh]? = some r → fh < nextFh
  active : ∀ (fh : Nat) (r : HandleRecord P), h.records[fh]? = some r → r.active = leases.count fh
  leased : ∀ fh ∈ leases, ∃ r : HandleRecord P, h.records[fh]? = some r
  unlisted : ∀ fh ∈ removed + draining, fh ∉ h.listed ∧
    ∃ r : HandleRecord P, h.records[fh]? = some r ∧ r.taken = false
  closed : ∀ fh ∈ draining, ∀ r : HandleRecord P, h.records[fh]? = some r → r.closing = true
  exclusive : (removed + draining).Nodup
  taken : ∀ (fh : Nat) (r : HandleRecord P), h.records[fh]? = some r → r.taken = true →
    r.closing = true ∧ r.active = 0

variable {leases leases' removed removed' draining draining' : Multiset Nat} {nextFh : Nat}

theorem new_sound : (new : Handles P).Sound 0 0 0 nextFh := by
  constructor <;> intros <;> simp_all [new]

theorem Sound.mono (sound : h.Sound leases removed draining nextFh) {m : Nat} (le : nextFh ≤ m) :
    h.Sound leases removed draining m :=
  { sound with lt := fun fh r record => (sound.lt fh r record).trans_le le }

/-- The next number has no record. -/
theorem Sound.fresh (sound : h.Sound leases removed draining nextFh) :
    h.records[nextFh]? = none := by
  cases record : h.records[nextFh]? with
  | none => rfl
  | some r => exact absurd (sound.lt _ r record) (lt_irrefl _)

theorem Sound.add (sound : h.Sound leases removed draining nextFh) {node : NodeId} {payload : P} :
    (h.add nextFh node payload).Sound leases removed draining (nextFh + 1) := by
  have dead : h.records[nextFh]? = none := sound.fresh
  have records : ∀ k, (h.add nextFh node payload).records[k]? =
      if nextFh = k then some (HandleRecord.new node payload) else h.records[k]? := fun k => by
    simp [Handles.add, ExtTreeMap.getElem?_insert]
  have old : ∀ (k : Nat) (r : HandleRecord P), h.records[k]? = some r →
      (h.add nextFh node payload).records[k]? = some r := fun k r record => by
    rw [records, if_neg (fun same => by rw [same, record] at dead; cases dead), record]
  constructor
  case listed =>
      intro k mem
      rcases ExtTreeSet.mem_insert.mp mem with same | mem
      · have same : nextFh = k := Std.compare_eq_iff_eq.mp same
        exact ⟨_, by rw [records, if_pos same], rfl⟩
      · obtain ⟨r, record, closing⟩ := sound.listed k mem
        exact ⟨r, old k r record, closing⟩
  case lt =>
      intro k r record
      rw [records] at record
      split at record
      · omega
      · exact (sound.lt k r record).trans (Nat.lt_succ_self _)
  case active =>
      intro k r record
      rw [records] at record
      split at record
      · rename_i same
        cases record
        have none : nextFh ∉ leases := fun mem => by
          obtain ⟨r, record⟩ := sound.leased _ mem
          rw [dead] at record
          cases record
        rw [← same, Multiset.count_eq_zero.mpr none]
        rfl
      · exact sound.active k r record
  case leased =>
      intro k mem
      obtain ⟨r, record⟩ := sound.leased k mem
      exact ⟨r, old k r record⟩
  case unlisted =>
      intro k mem
      obtain ⟨unlisted, r, record, taken⟩ := sound.unlisted k mem
      refine ⟨fun mem => ?_, r, old k r record, taken⟩
      rcases ExtTreeSet.mem_insert.mp mem with same | mem
      · have same : nextFh = k := Std.compare_eq_iff_eq.mp same
        rw [← same, dead] at record
        cases record
      · exact unlisted mem
  case closed =>
      intro k mem r record
      obtain ⟨-, r', record', -⟩ := sound.unlisted k (Multiset.mem_add.mpr (.inr mem))
      rw [old k r' record'] at record
      cases record
      exact sound.closed k mem r record'
  case exclusive => exact sound.exclusive
  case taken =>
      intro k r record taken
      rw [records] at record
      split at record
      · cases record
        cases taken
      · exact sound.taken k r record taken

/-- Rewriting one record's lease count or flags. -/
theorem Sound.put (sound : h.Sound leases removed draining nextFh) (record : h.records[fh]? = some r)
    (closing : fh ∈ h.listed → r'.closing = false)
    (active : r'.active = leases'.count fh) (others : ∀ k, k ≠ fh → leases'.count k = leases.count k)
    (unlisted : ∀ k ∈ removed' + draining', k ∈ removed + draining ∧ (k = fh → r'.taken = false))
    (closed : ∀ k ∈ draining', k = fh ∧ r'.closing = true ∨ k ≠ fh ∧ k ∈ draining)
    (exclusive : (removed' + draining').Nodup)
    (taken : r'.taken = true → r'.closing = true ∧ r'.active = 0) :
    (h.put fh r').Sound leases' removed' draining' nextFh := by
  constructor
  case listed =>
      intro k mem
      by_cases same : fh = k
      · subst same
        exact ⟨r', by rw [put_records, if_pos rfl], closing mem⟩
      · obtain ⟨s, record', closing'⟩ := sound.listed k mem
        exact ⟨s, by rw [put_records, if_neg same, record'], closing'⟩
  case lt =>
      intro k s record'
      rw [put_records] at record'
      split at record'
      · rename_i same
        exact same ▸ sound.lt fh r record
      · exact sound.lt k s record'
  case active =>
      intro k s record'
      rw [put_records] at record'
      split at record'
      · rename_i same
        cases record'
        exact same ▸ active
      · rename_i other
        rw [others k (Ne.symm other)]
        exact sound.active k s record'
  case leased =>
      intro k mem
      by_cases same : fh = k
      · exact ⟨r', by rw [put_records, if_pos same]⟩
      · have mem' : k ∈ leases := by
          rw [← Multiset.count_pos, ← others k (Ne.symm same)]
          exact Multiset.count_pos.mpr mem
        obtain ⟨s, record'⟩ := sound.leased k mem'
        exact ⟨s, by rw [put_records, if_neg same, record']⟩
  case unlisted =>
      intro k mem
      obtain ⟨old, keep⟩ := unlisted k mem
      obtain ⟨unlisted', s, record', taken'⟩ := sound.unlisted k old
      refine ⟨unlisted', ?_⟩
      by_cases same : fh = k
      · exact ⟨r', by rw [put_records, if_pos same], keep same.symm⟩
      · exact ⟨s, by rw [put_records, if_neg same, record'], taken'⟩
  case closed =>
      intro k mem s record'
      rw [put_records] at record'
      rcases closed k mem with ⟨rfl, closing'⟩ | ⟨other, old⟩
      · rw [if_pos rfl] at record'
        cases record'
        exact closing'
      · rw [if_neg other.symm] at record'
        exact sound.closed k old s record'
  case exclusive => exact exclusive
  case taken =>
      intro k s record' taken'
      rw [put_records] at record'
      split at record'
      · cases record'
        exact taken taken'
      · exact sound.taken k s record' taken'

/-! ## One lemma for each section -/

theorem acquire_granted {payload : P} (acquire : h.acquire fh = (some (some payload), h')) :
    ∃ r, h.records[fh]? = some r ∧ r.closing = false ∧ r.payload = payload ∧
      h' = h.put fh { r with active := r.active + 1 } := by
  unfold Handles.acquire at acquire
  split at acquire
  · cases acquire
  · rename_i r record
    split at acquire
    · cases acquire
    · rename_i open_
      split at acquire
      · rename_i n add
        cases checkedAdd_eq_some add
        cases acquire
        exact ⟨r, record, by simpa using open_, rfl, rfl⟩
      · cases acquire

/-- A lease is only granted on an open record, and counts as one. -/
theorem Sound.acquire (sound : h.Sound leases removed draining nextFh) {payload : P}
    (acquire : h.acquire fh = (some (some payload), h')) :
    h'.Sound (fh ::ₘ leases) removed draining nextFh ∧ h'.nodes = h.nodes ∧
      ∃ r, h.records[fh]? = some r ∧ h' = h.put fh { r with active := r.active + 1 } := by
  obtain ⟨r, record, open_, -, rfl⟩ := acquire_granted acquire
  refine ⟨sound.put record (fun _ => open_) ?_ ?_ ?_ ?_ sound.exclusive ?_,
    nodes_put record rfl, r, record, rfl⟩
  · show r.active + 1 = _
    rw [Multiset.count_cons_self, sound.active fh r record]
  · exact fun k other => Multiset.count_cons_of_ne other leases
  · intro k mem
    refine ⟨mem, fun same => ?_⟩
    obtain ⟨-, s, record', taken⟩ := sound.unlisted k mem
    rw [same, record] at record'
    cases record'
    exact taken
  · intro k mem
    by_cases same : k = fh
    · have := sound.closed k mem r (same ▸ record)
      rw [open_] at this
      cases this
    · exact .inr ⟨same, mem⟩
  · intro taken
    have := (sound.taken fh r record taken).1
    rw [open_] at this
    cases this

theorem acquire_refused (refused : h.acquire fh = (some none, h')) : h' = h := by
  unfold Handles.acquire at refused
  split at refused
  · exact (Prod.mk.inj refused).2.symm
  · split at refused
    · exact (Prod.mk.inj refused).2.symm
    · split at refused <;> cases refused

theorem acquire_overflow (overflow : h.acquire fh = (none, h')) : h' = h := by
  unfold Handles.acquire at overflow
  split at overflow
  · cases overflow
  · split at overflow
    · cases overflow
    · split at overflow
      · cases overflow
      · exact (Prod.mk.inj overflow).2.symm

/-- The scan leases the first record of its list that it can, or leaves the table alone. -/
theorem scanFrom_cases (ino : Nat) (numbers : List Nat) :
    (h.scanFrom ino numbers = (some none, h) ∧
      ∀ k ∈ numbers, h.find k = some ino → h.acquire k = (some none, h)) ∨
    h.scanFrom ino numbers = (none, h) ∨
    ∃ fh payload h', h.scanFrom ino numbers = (some (some (fh, payload)), h') ∧
      h.acquire fh = (some (some payload), h') ∧ h.find fh = some ino := by
  induction numbers with
  | nil => exact .inl ⟨rfl, fun k mem => absurd mem List.not_mem_nil⟩
  | cons k rest ih =>
      unfold scanFrom
      by_cases found : h.find k = some ino
      · rw [if_pos found]
        rcases acq : h.acquire k with ⟨_ | _ | payload, h₁⟩
        · exact .inr (.inl rfl)
        · cases acquire_refused acq
          rcases ih with ⟨eq, none⟩ | eq | leased
          · refine .inl ⟨eq, fun k' mem found' => ?_⟩
            rcases List.mem_cons.mp mem with rfl | mem
            · exact acq
            · exact none k' mem found'
          · exact .inr (.inl eq)
          · exact .inr (.inr leased)
        · exact .inr (.inr ⟨k, payload, h₁, rfl, acq, found⟩)
      · rw [if_neg found]
        rcases ih with ⟨eq, none⟩ | eq | leased
        · refine .inl ⟨eq, fun k' mem found' => ?_⟩
          rcases List.mem_cons.mp mem with rfl | mem
          · exact absurd found' found
          · exact none k' mem found'
        · exact .inr (.inl eq)
        · exact .inr (.inr leased)

theorem Sound.unlease (sound : h.Sound (fh ::ₘ leases) removed draining nextFh) :
    (h.unlease fh).Sound leases removed draining nextFh ∧ (h.unlease fh).nodes = h.nodes := by
  obtain ⟨r, record⟩ := sound.leased fh (Multiset.mem_cons_self fh leases)
  have count := sound.active fh r record
  rw [Multiset.count_cons_self] at count
  unfold Handles.unlease
  rw [record]
  refine ⟨sound.put record ?_ ?_ ?_ ?_ ?_ sound.exclusive ?_, nodes_put record rfl⟩
  · intro listed
    obtain ⟨s, record', open_⟩ := sound.listed fh listed
    rw [record] at record'
    cases record'
    exact open_
  · show r.active - 1 = _
    omega
  · exact fun k other => (Multiset.count_cons_of_ne other leases).symm
  · intro k mem
    refine ⟨mem, fun same => ?_⟩
    obtain ⟨-, s, record', taken⟩ := sound.unlisted k mem
    rw [same, record] at record'
    cases record'
    exact taken
  · intro k mem
    by_cases same : k = fh
    · exact .inl ⟨same, sound.closed k mem r (same ▸ record)⟩
    · exact .inr ⟨same, mem⟩
  · intro taken
    have := (sound.taken fh r record taken).2
    omega

/-- A record leaves the table once, and the release that took it out has it to itself. -/
theorem Sound.remove (sound : h.Sound leases removed draining nextFh) {ino : Nat}
    (remove : h.remove ino fh = (true, h')) :
    h'.Sound leases (fh ::ₘ removed) draining nextFh ∧ h.nodes = ino ::ₘ h'.nodes ∧
      fh ∈ h.listed ∧ h'.records = h.records ∧ h'.listed = h.listed.erase fh ∧
      ∃ r, h.records[fh]? = some r ∧ r.node = ino := by
  unfold Handles.remove at remove
  split at remove
  · rename_i found
    cases remove
    obtain ⟨listed, r, record, node⟩ := find_eq_some found
    have alone : fh ∉ removed + draining := fun mem => (sound.unlisted fh mem).1 listed
    refine ⟨?_, node ▸ nodes_erase listed record, listed, rfl, rfl, r, record, node⟩
    constructor
    case listed => exact fun k mem => sound.listed k (ExtTreeSet.mem_of_mem_erase mem)
    case lt => exact sound.lt
    case active => exact sound.active
    case leased => exact sound.leased
    case unlisted =>
        intro k mem
        rw [Multiset.cons_add] at mem
        rcases Multiset.mem_cons.mp mem with rfl | mem
        · refine ⟨by simp, r, record, ?_⟩
          obtain ⟨s, record', open_⟩ := sound.listed k listed
          rw [record] at record'
          cases record'
          cases taken : r.taken with
          | false => rfl
          | true =>
              have := (sound.taken k r record taken).1
              rw [open_] at this
              cases this
        · obtain ⟨unlisted, s, record', taken⟩ := sound.unlisted k mem
          exact ⟨fun mem => unlisted (ExtTreeSet.mem_of_mem_erase mem), s, record', taken⟩
    case closed => exact sound.closed
    case exclusive =>
        rw [Multiset.cons_add]
        exact Multiset.nodup_cons.mpr ⟨alone, sound.exclusive⟩
    case taken => exact sound.taken
  · cases remove

theorem remove_refused {ino : Nat} (refused : h.remove ino fh = (false, h')) : h' = h := by
  unfold Handles.remove at refused
  split at refused
  · cases refused
  · exact (Prod.mk.inj refused).2.symm

theorem Sound.close (sound : h.Sound leases (fh ::ₘ removed) draining nextFh) :
    (h.close fh).Sound leases removed (fh ::ₘ draining) nextFh ∧ (h.close fh).nodes = h.nodes := by
  have mem : fh ∈ fh ::ₘ removed + draining :=
    Multiset.mem_add.mpr (.inl (Multiset.mem_cons_self fh removed))
  have swap : removed + fh ::ₘ draining = fh ::ₘ removed + draining := by
    rw [Multiset.add_cons, Multiset.cons_add]
  obtain ⟨unlisted, r, record, taken⟩ := sound.unlisted fh mem
  unfold Handles.close
  rw [record]
  refine ⟨sound.put record (fun listed => absurd listed unlisted) (sound.active fh r record)
    (fun _ _ => rfl) ?_ ?_ (swap ▸ sound.exclusive) ?_, nodes_put record rfl⟩
  · intro k mem
    rw [swap] at mem
    exact ⟨mem, fun _ => taken⟩
  · intro k mem
    rcases Multiset.mem_cons.mp mem with same | mem
    · exact .inl ⟨same, rfl⟩
    · by_cases same : k = fh
      · exact .inl ⟨same, rfl⟩
      · exact .inr ⟨same, mem⟩
  · intro taken'
    rw [taken] at taken'
    cases taken'

theorem take_eq_some {payload : P} (take : h.take fh = some (payload, h')) :
    ∃ r, h.records[fh]? = some r ∧ r.active = 0 ∧ r.payload = payload ∧
      h' = h.put fh { r with taken := true } := by
  unfold Handles.take at take
  split at take
  · cases take
  · rename_i r record
    split at take
    · cases take
      exact ⟨r, record, ‹_›, rfl, rfl⟩
    · cases take

/-- The payload leaves a closed record without leases. -/
theorem Sound.take (sound : h.Sound leases removed (fh ::ₘ draining) nextFh) {payload : P}
    (take : h.take fh = some (payload, h')) :
    h'.Sound leases removed draining nextFh ∧ h'.nodes = h.nodes ∧
      ∃ r, h.records[fh]? = some r ∧ h' = h.put fh { r with taken := true } := by
  have mem : fh ∈ removed + fh ::ₘ draining :=
    Multiset.mem_add.mpr (.inr (Multiset.mem_cons_self fh draining))
  obtain ⟨r, record, drained, -, rfl⟩ := take_eq_some take
  have closed := sound.closed fh (Multiset.mem_cons_self fh draining) r record
  have alone := sound.exclusive
  rw [Multiset.add_cons, Multiset.nodup_cons] at alone
  refine ⟨sound.put record (fun listed => absurd listed (sound.unlisted fh mem).1)
    (sound.active fh r record) (fun _ _ => rfl) ?_ ?_ alone.2 (fun _ => ⟨closed, drained⟩),
    nodes_put record rfl, r, record, rfl⟩
  · intro k mem
    refine ⟨?_, fun same => absurd (same ▸ mem) alone.1⟩
    rw [Multiset.add_cons]
    exact Multiset.mem_cons_of_mem mem
  · intro k mem
    refine .inr ⟨fun same => alone.1 ?_, Multiset.mem_cons_of_mem mem⟩
    exact Multiset.mem_add.mpr (.inr (same ▸ mem))

end Handles

end TypedFuse
