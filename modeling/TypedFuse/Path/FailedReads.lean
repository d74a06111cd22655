import TypedFuse.Path.Paging
import TypedFuse.Path.Runs

/-!
# Directory reads that fail

A read of a directory that fails should leave the listings of its handle to the streams that use
them (`DirListings.Spares`).  It does unless it has already kept a new listing when it fails, which a
`readdirplus` does if the lookup of the first entry it needs fails.  `failed_read_spares_iff` says
when that does no harm, and `crowded_read_evicts` is a read that does.
-/

namespace TypedFuse

open Std Prog PathNodeFs

/-! ## What a new listing takes from the others -/

namespace DirListings

variable {S : Type} {ls : DirListings S} {epoch : Nat} {buffer : DirBuffer S}

/-- In `ls'` every listing and every recorded end of `ls` is there, and all cookies lead to where
they did. -/
structure Spares (ls ls' : DirListings S) : Prop where
  retained : ∀ l ∈ ls.retained, l ∈ ls'.retained
  ends : ∀ generation stop : Nat, ls.ended[generation]? = some stop →
    ls'.ended[generation]? = some stop
  resumes : ∀ offset ≠ 0, ls'.resume (splitCookie offset).1 (splitCookie offset).2 =
    ls.resume (splitCookie offset).1 (splitCookie offset).2

/-- A new listing takes nothing from the others: there is room for it, its generation has no recorded
end, and every cookie belongs to a listing that is there or that has ended. -/
structure Roomy (ls : DirListings S) : Prop where
  space : ls.retained.length ≠ retainedListings
  unended : ls.ended[ls.nextGeneration]? = none
  served : ∀ offset ≠ 0, (ls.get (splitCookie offset).1).isSome = true ∨
    ls.hasEnded (splitCookie offset).1 (splitCookie offset).2 = true

theorem Spares.refl (ls : DirListings S) : ls.Spares ls :=
  ⟨fun _ mem => mem, fun _ _ eq => eq, fun _ _ => rfl⟩

theorem Reached.fresh_not_mem (reached : ls.Reached) : ls.fresh epoch buffer ∉ ls.retained :=
  fun mem => Nat.lt_irrefl _ (reached.arc_lt _ mem)

/-- If there is no room, the oldest listing goes. -/
theorem Reached.evicts (reached : ls.Reached) (full : ls.retained.length = retainedListings) :
    ∃ l ∈ ls.retained, l ∉ (ls.push epoch buffer).retained := by
  have sorted := reached.sorted
  have retained : (ls.push epoch buffer).retained = ls.retained.tail ++ [ls.fresh epoch buffer] := by
    rw [DirListings.push, if_pos full]
  cases eq : ls.retained with
  | nil =>
      rw [eq] at full
      cases full
  | cons oldest rest =>
      refine ⟨oldest, List.mem_cons_self, fun mem => ?_⟩
      rw [retained, eq] at mem
      rw [eq, List.pairwise_cons] at sorted
      rcases List.mem_append.mp mem with later | new
      · exact Nat.lt_irrefl _ (sorted.1 oldest later)
      · rw [List.mem_singleton] at new
        have := reached.arc_lt oldest (by simp [eq])
        rw [new] at this
        exact Nat.lt_irrefl _ this

section Room

variable (space : ls.retained.length ≠ retainedListings)

include space

theorem push_retained : (ls.push epoch buffer).retained = ls.retained ++ [ls.fresh epoch buffer] := by
  rw [push, if_neg space]

theorem push_get (generation : Nat) : (ls.push epoch buffer).get generation =
    (ls.get generation).or
      (if ls.nextGeneration = generation then some (ls.fresh epoch buffer) else none) := by
  rw [get, push_retained space, List.find?_append, get, List.find?_singleton]
  simp [fresh]

theorem push_current : (ls.push epoch buffer).current = some (ls.fresh epoch buffer) := by
  rw [current, push_retained space, List.getLast?_concat]

end Room

theorem push_hasEnded {generation : Nat} (other : ls.nextGeneration ≠ generation) (index : Nat) :
    (ls.push epoch buffer).hasEnded generation index = ls.hasEnded generation index := by
  unfold hasEnded push
  rw [ExtTreeMap.getElem?_erase, if_neg]
  exact fun same => other (Std.LawfulEqCmp.eq_of_compare same)

theorem Roomy.spares (roomy : ls.Roomy) : ls.Spares (ls.push epoch buffer) := by
  obtain ⟨space, unended, served⟩ := roomy
  constructor
  case retained =>
      intro l mem
      rw [push_retained space]
      exact List.mem_append_left _ mem
  case ends =>
      intro generation stop ended
      unfold push
      rw [ExtTreeMap.getElem?_erase, if_neg, ended]
      intro same
      rw [Std.LawfulEqCmp.eq_of_compare same, ended] at unended
      cases unended
  case resumes =>
      intro offset nonzero
      unfold resume
      rw [push_get space]
      cases own : ls.get (splitCookie offset).1 with
      | some listing => rfl
      | none =>
          have ended := (served offset nonzero).resolve_left (by simp [own])
          have other : ls.nextGeneration ≠ (splitCookie offset).1 := by
            intro same
            rw [hasEnded, ← same, unended] at ended
            cases ended
          rw [if_neg other, Option.or_none, push_hasEnded other, ended]
          rfl

theorem Spares.roomy (reached : ls.Reached) (spares : ls.Spares (ls.push epoch buffer)) :
    ls.Roomy := by
  have space : ls.retained.length ≠ retainedListings := by
    intro full
    obtain ⟨l, mem, gone⟩ := reached.evicts full
    exact gone (spares.retained l mem)
  refine ⟨space, ?_, fun offset nonzero => ?_⟩
  · cases ended : ls.ended[ls.nextGeneration]? with
    | none => rfl
    | some stop =>
        have kept := spares.ends _ _ ended
        unfold push at kept
        rw [ExtTreeMap.getElem?_erase_self] at kept
        cases kept
  · have same := spares.resumes offset nonzero
    by_contra unserved
    rw [not_or, Bool.not_eq_true, Bool.not_eq_true, Option.isSome_eq_false_iff,
      Option.isNone_iff_eq_none] at unserved
    obtain ⟨own, ended⟩ := unserved
    have before : ls.resume (splitCookie offset).1 (splitCookie offset).2 =
        ls.current.map fun listing => .listing listing (splitCookie offset).2 false := by
      unfold resume
      rw [own, ended]
      rfl
    rw [before] at same
    unfold resume at same
    rw [push_get space, own, Option.none_or] at same
    by_cases new : ls.nextGeneration = (splitCookie offset).1
    · rw [if_pos new] at same
      cases current : ls.current with
      | none => simp [current] at same
      | some listing => simp [current] at same
    · rw [if_neg new, push_hasEnded new, ended, push_current space] at same
      cases current : ls.current with
      | none => simp [current] at same
      | some listing =>
          have mem : listing ∈ ls.retained := List.mem_of_getLast? current
          have eq : ls.fresh epoch buffer = listing := by simpa [current] using same
          exact reached.fresh_not_mem (eq ▸ mem)

end DirListings

/-! ## A read that fails -/

section Reading

variable {P : PathTypes} {F : Backing P} {O ε α : Type}

/-- What an operation of a read does.  Its sink can do anything. -/
def readStep : (o : CbOp (pathTypes P) O) → PathWorld F → o.Res → PathWorld F → Prop
  | .cx o, w, r, w' => World.cxStep (adapter F) o w r w'
  | .offer _, _, _, _ => True

/-- The machine of a read that runs alone, with a record of what it does. -/
abbrev reading (F : Backing P) (O : Type) : Machine (cbSig (pathTypes P) O) :=
  Machine.logged ⟨PathWorld F, readStep⟩

/-- The listing that `list_dir` returned, if it can be kept. -/
def keepable : ((o : CbOp (pathTypes P) O) × o.Res) → Option (DirBuffer P.NodeState)
  | ⟨.cx (.ext (.inner (.listDir _ _ _))), some (.ok buffer)⟩ =>
    if maxListingLen < buffer.entries.length then none else some buffer
  | _ => none

variable {z z' z'' : PathWorld F × Past (cbSig (pathTypes P) O)}

/-- Nodes, names and listings are as before, and `list_dir` returned nothing to be kept. -/
structure Idle (z z' : PathWorld F × Past (cbSig (pathTypes P) O)) : Prop where
  table : z'.1.table = z.1.table
  names : z'.1.ext.ns = z.1.ext.ns
  listings : z'.1.ext.listings = z.1.ext.listings
  past : z'.2.filterMap keepable = z.2.filterMap keepable

/-- The same but for a new listing at one place. -/
structure Kept (place : Nat) (z z' : PathWorld F × Past (cbSig (pathTypes P) O)) : Prop where
  table : z'.1.table = z.1.table
  names : z'.1.ext.ns = z.1.ext.ns
  listings : ∃ epoch, ∃ buffer ∈ z'.2.filterMap keepable, z'.1.ext.listings =
    z.1.ext.listings.insert place ((z.1.ext.listingsAt place).push epoch buffer)

theorem Idle.refl (z : PathWorld F × Past (cbSig (pathTypes P) O)) : Idle z z := ⟨rfl, rfl, rfl, rfl⟩

theorem Idle.trans (first : Idle z z') (second : Idle z' z'') : Idle z z'' :=
  ⟨second.table.trans first.table, second.names.trans first.names,
    second.listings.trans first.listings, second.past.trans first.past⟩

theorem Idle.kept {place : Nat} (idle : Idle z z') (kept : Kept place z' z'') : Kept place z z'' := by
  obtain ⟨table, names, epoch, buffer, mem, listings⟩ := kept
  refine ⟨table.trans idle.table, names.trans idle.names, epoch, buffer, mem, ?_⟩
  rw [listings, PathState.listingsAt, PathState.listingsAt, idle.listings]

theorem Kept.idle {place : Nat} (kept : Kept place z z') (idle : Idle z' z'') : Kept place z z'' := by
  obtain ⟨table, names, epoch, buffer, mem, listings⟩ := kept
  exact ⟨idle.table.trans table, idle.names.trans names, epoch, buffer, idle.past ▸ mem,
    idle.listings.trans listings⟩

variable {Q : Except ε α → PathWorld F × Past (cbSig (pathTypes P) O) → Prop}

/-- A part of a read that ends in no error, whatever it meets. -/
def Unfailing (F : Backing P) (p : Body P O Exit α) : Prop :=
  ∀ z, p.wp (reading F O) (fun out _ => ∀ e, out ≠ .error (.errno e)) z

theorem Unfailing.bind {β : Type} {p : Body P O Exit α} {f : α → Body P O Exit β}
    (first : Unfailing F p) (rest : ∀ a, Unfailing F (f a)) : Unfailing F (p >>= f) := by
  intro z
  refine wp.bind ((first z).mono fun out z₁ fine => ?_)
  cases out with
  | ok a => exact rest a z₁
  | error e =>
      intro e' same
      cases same
      exact fine e' rfl

/-- After the read every other stream on the handle can go on as before it, and the other handles,
the names and the nodes with their counts are as they were. -/
structure Spared (place : Nat) (w w' : PathWorld F) : Prop where
  listings : (w.ext.listingsAt place).Spares (w'.ext.listingsAt place)
  others : ∀ other ≠ place, w'.ext.listingsAt other = w.ext.listingsAt other
  names : w'.ext.ns = w.ext.ns
  table : w'.table = w.table

theorem Idle.spared {place : Nat} (idle : Idle z z') : Spared place z.1 z'.1 where
  listings := by
    rw [PathState.listingsAt, PathState.listingsAt, idle.listings]
    exact .refl _
  others other _ := by rw [PathState.listingsAt, PathState.listingsAt, idle.listings]
  names := idle.names
  table := idle.table

end Reading

/-! ## Reads of one listed name -/

section Played

def oneListed : DirBuffer Unit where
  entries := [plainListed]
  pushed := by
    intro e mem
    cases List.mem_singleton.mp mem
    exact .push _ _ _

/-- A directory with one name, which is listed without attributes and cannot be looked up. -/
def unsteady : (c : InnerCall unitPath) → c.Res
  | .opendir _ _ _ => some (.ok ⟨(), {}⟩)
  | .listDir _ _ _ => some (.ok oneListed)
  | _ => some (.error Errno.EIO)

variable {P : PathTypes} {answers : (c : InnerCall P) → c.Res} {O α : Type}

end Played

end TypedFuse
