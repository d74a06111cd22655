import Std.Data.ExtTreeMap
import TypedFuse.Core.Types

/-!
# Directory listings

What the path adapter keeps of `list_dir` results on a directory handle (`path_fs.rs`): the
`DirBuffer` a filesystem fills, the resume cookies, and `DirListings`, the few most recent listings
of one handle.

Listings are shared through `Arc`s and compared as pointers.  `DirListing.arc` stands for the
pointer: its number among the listings of its handle.
-/

namespace TypedFuse

open Std

inductive PathDirIdentity (S : Type)
  | current
  | parent
  | child (state : S)

structure DirEntry (S : Type) where
  name : OsStr
  kind : FileKind
  attr : Option NodeAttr
  identity : PathDirIdentity S

/-- The entries that `push`, `push_plus` and `push_dots` append. -/
inductive DirEntry.Pushed {S : Type} : DirEntry S → Prop
  | push (name : OsStr) (kind : FileKind) (state : S) : Pushed ⟨name, kind, none, .child state⟩
  | pushPlus (name : OsStr) (attr : NodeAttr) (state : S) :
    Pushed ⟨name, attr.kind, some attr, .child state⟩
  | dot (attr : NodeAttr) : Pushed ⟨OsStr.dot, .directory, some attr, .current⟩
  | dotDot (attr : NodeAttr) : Pushed ⟨OsStr.dotDot, .directory, some attr, .parent⟩

/-- A directory's contents as `list_dir` returned them. -/
structure DirBuffer (S : Type) where
  entries : List (DirEntry S)
  pushed : ∀ e ∈ entries, e.Pushed

/-! ## Resume cookies -/

def cookieIndexBits : Nat := 27
def cookieIndexMask : Nat := 2 ^ cookieIndexBits - 1
def cookieGenerations : Nat := 16
/-- The most entries a listing can hold and still fit its cookies. -/
def maxListingLen : Nat := cookieIndexMask
/-- Listings kept per directory handle for resumed reads. -/
def retainedListings : Nat := 4

def listingCookie (generation index : Nat) : Nat :=
  (generation <<< cookieIndexBits) ||| (index + 1)

/-- The generation that issued a cookie and the index to resume from. -/
def splitCookie (offset : Nat) : Nat × Nat :=
  ((offset >>> cookieIndexBits) &&& (cookieGenerations - 1), offset &&& cookieIndexMask)

theorem splitCookie_eq (offset : Nat) :
    splitCookie offset = (offset / 2 ^ 27 % 16, offset % 2 ^ 27) := by
  simp only [splitCookie, cookieIndexBits, cookieIndexMask, cookieGenerations,
    Nat.shiftRight_eq_div_pow, Nat.and_two_pow_sub_one_eq_mod]
  exact Prod.ext (Nat.and_two_pow_sub_one_eq_mod _ 4) rfl

theorem listingCookie_eq {index : Nat} (fits : index < maxListingLen) (generation : Nat) :
    listingCookie generation index = generation * 2 ^ 27 + (index + 1) := by
  have small : index + 1 < 2 ^ 27 := by
    simp only [maxListingLen, cookieIndexMask, cookieIndexBits] at fits
    omega
  rw [listingCookie, cookieIndexBits, ← Nat.shiftLeft_add_eq_or_of_lt small, Nat.shiftLeft_eq]

/-- A cookie leads back to the listing that issued it, right after the entry it came with. -/
theorem splitCookie_listingCookie {generation index : Nat} (gen : generation < cookieGenerations)
    (fits : index < maxListingLen) :
    splitCookie (listingCookie generation index) = (generation, index + 1) := by
  simp only [maxListingLen, cookieIndexMask, cookieIndexBits, cookieGenerations] at fits gen
  rw [splitCookie_eq, listingCookie_eq (by simpa [maxListingLen, cookieIndexMask, cookieIndexBits])]
  refine Prod.ext ?_ ?_ <;> dsimp only <;> omega

theorem listingCookie_ne_zero (generation index : Nat) : listingCookie generation index ≠ 0 := by
  intro zero
  have := Nat.or_eq_zero_iff.mp zero
  omega

/-! ## The listings of a handle -/

structure DirListing (S : Type) where
  arc : Nat
  generation : Nat
  epoch : Nat
  buffer : DirBuffer S

/-- What a directory read continues. -/
inductive DirRead (S : Type)
  /-- Replay `listing` from index `start`; `owned` is false when the cookie's own listing was
  evicted and the read borrows the current one. -/
  | listing (listing : DirListing S) (start : Nat) (owned : Bool)
  | ended

/-- The listings one directory handle keeps, newest last; for each generation, where its dropped
listing ended; and how many listings the handle has taken. -/
structure DirListings (S : Type) where
  nextGeneration : Nat := 0
  retained : List (DirListing S) := []
  ended : ExtTreeMap Nat Nat := ∅
  taken : Nat := 0

namespace DirListings

variable {S : Type} (ls : DirListings S)

def hasEnded (generation index : Nat) : Bool := ls.ended[generation]?.any (· ≤ index)

def get (generation : Nat) : Option (DirListing S) :=
  ls.retained.find? fun l => l.generation == generation

def current : Option (DirListing S) := ls.retained.getLast?

/-- Drop `listing` after a read at index `stop` sent nothing. -/
def finish (listing : DirListing S) (stop : Nat) : DirListings S :=
  let retained := ls.retained.filter fun l => l.arc != listing.arc
  { ls with
    retained
    ended :=
      if retained.length ≠ ls.retained.length then ls.ended.insert listing.generation stop
      else ls.ended }

/-- The listing `push` keeps. -/
def fresh (epoch : Nat) (buffer : DirBuffer S) : DirListing S :=
  ⟨ls.taken, ls.nextGeneration, epoch, buffer⟩

def push (epoch : Nat) (buffer : DirBuffer S) : DirListings S where
  nextGeneration := (ls.nextGeneration + 1) % cookieGenerations
  retained :=
    (if ls.retained.length = retainedListings then ls.retained.tail else ls.retained) ++
      [ls.fresh epoch buffer]
  ended := ls.ended.erase ls.nextGeneration
  taken := ls.taken + 1

/-- The section of `directory_listing` on the handle's listings: what a read with a cookie
continues, if anything. -/
def resume (generation start : Nat) : Option (DirRead S) :=
  match ls.get generation with
  | some listing => some (.listing listing start true)
  | none =>
    if ls.hasEnded generation start then some .ended
    else ls.current.map fun listing => .listing listing start false

/-- The states that the listings of a handle go through. -/
inductive Reached : DirListings S → Prop
  | new : Reached {}
  | push {ls : DirListings S} (epoch : Nat) (buffer : DirBuffer S) :
    Reached ls → Reached (ls.push epoch buffer)
  | finish {ls : DirListings S} (listing : DirListing S) (stop : Nat) :
    Reached ls → Reached (ls.finish listing stop)

variable {ls}

theorem mem_push {listing : DirListing S} {epoch : Nat} {buffer : DirBuffer S}
    (mem : listing ∈ (ls.push epoch buffer).retained) :
    listing ∈ ls.retained ∨ listing = ls.fresh epoch buffer := by
  rcases List.mem_append.mp mem with old | new
  · split at old
    · exact .inl (List.mem_of_mem_tail old)
    · exact .inl old
  · exact .inr (List.mem_singleton.mp new)

/-- Listings are numbered as they are taken. -/
theorem Reached.arc_lt (reached : ls.Reached) : ∀ l ∈ ls.retained, l.arc < ls.taken := by
  induction reached with
  | new => exact fun _ mem => nomatch mem
  | @push ls epoch buffer _ ih =>
      intro l mem
      show l.arc < ls.taken + 1
      rcases mem_push mem with old | rfl
      · have := ih l old
        omega
      · exact Nat.lt_succ_self _
  | finish listing stop _ ih => exact fun l mem => ih l (List.mem_filter.mp mem).1

/-- The oldest one comes first. -/
theorem Reached.sorted (reached : ls.Reached) :
    ls.retained.Pairwise fun l l' => l.arc < l'.arc := by
  induction reached with
  | new => exact .nil
  | @push ls epoch buffer reached ih =>
      refine List.pairwise_append.mpr ⟨?_, List.pairwise_singleton _ _, fun l old l' new => ?_⟩
      · split
        · exact ih.tail
        · exact ih
      · cases List.mem_singleton.mp new
        refine reached.arc_lt l ?_
        split at old
        · exact List.mem_of_mem_tail old
        · exact old
  | finish listing stop _ ih => exact ih.filter _

end DirListings

end TypedFuse
