import Mathlib.Data.List.Perm.Subperm

/-!
# Following pointers

`next` points from each place to at most one other.  `Chase next a as` is that following it from `a`
comes to an end, after the pointers of the places `as`; the places are then different
(`Chase.nodup`), so a bound on the number of pointers bounds the way.

`Acyclic` is that every way ends.  It is about all the pointers at once; `Acyclic.update` and
`Acyclic.of_unpointed` are how it outlives a change of one of them.
-/

variable {α : Type} {next next' : α → Option α} {a b x : α} {as bs : List α}

/-- Following `next` from `a` ends, after the pointers of the places `as`. -/
inductive Chase (next : α → Option α) : α → List α → Prop
  | stop {a : α} : next a = none → Chase next a []
  | step {a b : α} {as : List α} : next a = some b → Chase next b as → Chase next a (a :: as)

/-- Wherever it starts, the way ends. -/
def Acyclic (next : α → Option α) : Prop := ∀ a, ∃ as, Chase next a as

namespace Chase

theorem unique (way : Chase next a as) (way' : Chase next a bs) : as = bs := by
  induction way generalizing bs with
  | stop none =>
      cases way' with
      | stop => rfl
      | step some => rw [none] at some; cases some
  | step some _ ih =>
      cases way' with
      | stop none => rw [some] at none; cases none
      | step some' rest =>
          rw [some] at some'
          cases some'
          rw [ih rest]

theorem points (way : Chase next a as) (mem : b ∈ as) : ∃ c, next b = some c := by
  induction way with
  | stop => cases mem
  | step some _ ih =>
      rcases List.mem_cons.mp mem with rfl | mem
      · exact ⟨_, some⟩
      · exact ih mem

/-- From a place on the way it is not farther. -/
theorem rest (way : Chase next a as) (mem : b ∈ as) :
    ∃ bs, Chase next b bs ∧ bs.length ≤ as.length := by
  induction way with
  | stop => cases mem
  | @step a c as some rest ih =>
      rcases List.mem_cons.mp mem with rfl | mem
      · exact ⟨_, .step some rest, Nat.le_refl _⟩
      · obtain ⟨bs, way, le⟩ := ih mem
        refine ⟨bs, way, ?_⟩
        rw [List.length_cons]
        omega

theorem nodup (way : Chase next a as) : as.Nodup := by
  induction way with
  | stop => exact .nil
  | @step a c as some way ih =>
      refine List.nodup_cons.mpr ⟨fun again => ?_, ih⟩
      obtain ⟨bs, way', le⟩ := way.rest again
      rw [← (Chase.step some way).unique way', List.length_cons] at le
      omega

/-- No more pointers are followed than there are. -/
theorem length_le (way : Chase next a as) {places : List α}
    (all : ∀ b c, next b = some c → b ∈ places) : as.length ≤ places.length := by
  have sub : as ⊆ places := fun b mem => by
    obtain ⟨c, some⟩ := way.points mem
    exact all b c some
  exact (way.nodup.subperm sub).length_le

/-- A way that does not come to `x` is the same if only the pointer at `x` changes. -/
theorem congr (way : Chase next a as) (same : ∀ b, b ≠ x → next' b = next b)
    (unpointed : ∀ b, b ≠ x → next' b ≠ some x) (start : a ≠ x) : Chase next' a as := by
  induction way with
  | stop none => exact .stop ((same _ start).trans none)
  | step some _ ih =>
      have some' := (same _ start).trans some
      refine .step some' (ih ?_)
      rintro rfl
      exact unpointed _ start some'

end Chase

namespace Acyclic

/-- One changed pointer, if the way from it still ends. -/
theorem update (acyclic : Acyclic next) (same : ∀ b, b ≠ x → next' b = next b)
    (ends : ∃ as, Chase next' x as) : Acyclic next' := by
  intro a
  obtain ⟨as, way⟩ := acyclic a
  induction way with
  | @stop a none =>
      by_cases here : a = x
      · exact here ▸ ends
      · exact ⟨[], .stop ((same a here).trans none)⟩
  | @step a b as some _ ih =>
      by_cases here : a = x
      · exact here ▸ ends
      · obtain ⟨bs, way⟩ := ih
        exact ⟨a :: bs, .step ((same a here).trans some) way⟩

/-- One changed pointer at a place that nothing points to. -/
theorem of_unpointed (acyclic : Acyclic next) (same : ∀ b, b ≠ x → next' b = next b)
    (unpointed : ∀ b, next' b ≠ some x) : Acyclic next' := by
  refine acyclic.update same ?_
  cases here : next' x with
  | none => exact ⟨[], .stop here⟩
  | some b =>
      obtain ⟨as, way⟩ := acyclic b
      have start : b ≠ x := by
        rintro rfl
        exact unpointed b here
      exact ⟨x :: as, .step here (way.congr same (fun b _ => unpointed b) start)⟩

end Acyclic
