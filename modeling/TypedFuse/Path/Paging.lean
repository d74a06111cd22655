import TypedFuse.Path.Adapter

/-!
# Reading a listing page by page

`replay_listing` (`path_fs.rs`) sends a part of a directory listing, and the cookie of the last entry
that was taken says where the next part starts.  A `Page` is one such call with everything it did and
was answered; `Paging` is a sequence of them on one listing, each with its own kind of read, its own
view of the directory and its own sink.

`paging_loses_nothing` says that the pages go through the listing in order: an entry that no page
took had its name looked up by the page that passed it, and was not there.
-/

namespace TypedFuse

open Std Prog PathNodeFs

variable {P : PathTypes}

/-! ## Pages -/

/-- The operations of a page; its sink is offered an entry with its cookie. -/
abbrev pageSig (P : PathTypes) : Sig := cbSig (pathTypes P) (DirEntry P.NodeState × Nat)

def offerEntry (entry : DirEntry P.NodeState) (next : Nat) :
    Body P (DirEntry P.NodeState × Nat) Exit Bool :=
  .op (.offer (entry, next)) fun
    | none => .exit .panic
    | some took => .ret took

/-- A read of a listing from the index `start`: what it did, and how it ended. -/
structure Page (P : PathTypes) where
  start : Nat
  plus : Bool
  past : Past (pageSig P)
  out : Except Exit Nat

/-- An operation of a page with its answer. -/
abbrev PageEvent (P : PathTypes) := (o : (pageSig P).Op) × (pageSig P).Res o

/-- The entry that the sink took. -/
def taking : PageEvent P → Option (DirEntry P.NodeState × Nat)
  | ⟨.offer entry, some true⟩ => some entry
  | _ => none

/-- What an event offers to the sink, whether it is taken or not. -/
def offering : PageEvent P → Option (DirEntry P.NodeState × Nat)
  | ⟨.offer entry, _⟩ => some entry
  | _ => none

/-- The event is a lookup of the name, which is not there. -/
def Missing (name : OsStr) : PageEvent P → Prop
  | ⟨.cx (.ext (.inner (.lookup _ name' _))), some (.ok none)⟩ => name' = name
  | ⟨.cx (.ext (.inner (.lookup _ name' _))), some (.error e)⟩ => name' = name ∧ e = .ENOENT
  | _ => False

namespace Page

/-- The entries the sink took, with their cookies. -/
def accepted (page : Page P) : List (DirEntry P.NodeState × Nat) := page.past.filterMap taking

/-- The listing indices of these, as their cookies tell. -/
def indices (page : Page P) : List Nat := page.accepted.map fun e => (splitCookie e.2).2 - 1

/-- Where the next page starts. -/
def next (page : Page P) : Nat :=
  page.accepted.getLast?.elim page.start fun e => (splitCookie e.2).2

/-- The name at an index was looked up in the page, and was not there. -/
def Missed (page : Page P) (listing : DirListing P.NodeState) (i : Nat) : Prop :=
  ∃ listed, listing.buffer.entries[i]? = some listed ∧ ∃ event ∈ page.past, Missing listed.name event

/-- A page of this listing. -/
def Of (page : Page P) (listing : DirListing P.NodeState) : Prop :=
  ∃ dir path caller, After (replayListing dir path listing page.start page.plus caller offerEntry)
    page.past (leave page.out)

end Page

/-- Pages of one listing, each from where the one before leads to. -/
inductive Paging (listing : DirListing P.NodeState) : (next : Nat) → List (Page P) → Prop
  | start : Paging listing 0 []
  | page {next : Nat} {pages : List (Page P)} (page : Page P) : Paging listing next pages →
    page.start = next → page.Of listing → Paging listing page.next (pages ++ [page])

/-! ## The way through a listing -/

/-- From the index `start` on, each entry was taken, or it was looked up and was missing. -/
inductive Walk (listing : DirListing P.NodeState) :
    (start : Nat) → Past (pageSig P) → List (DirEntry P.NodeState × Nat) → (stop : Nat) → Prop
  | here (i : Nat) : Walk listing i [] [] i
  | skip {i stop : Nat} {listed : DirEntry P.NodeState} {event : PageEvent P}
      {past : Past (pageSig P)} {took : List (DirEntry P.NodeState × Nat)} :
    listing.buffer.entries[i]? = some listed → Missing listed.name event →
    Walk listing (i + 1) past took stop → Walk listing i (event :: past) took stop
  | take {i stop : Nat} {listed entry : DirEntry P.NodeState} {looked past : Past (pageSig P)}
      {took : List (DirEntry P.NodeState × Nat)} :
    listing.buffer.entries[i]? = some listed → entry.name = listed.name →
    looked.filterMap offering = [] → Walk listing (i + 1) past took stop →
    Walk listing i
      (looked ++ ⟨.offer (entry, listingCookie listing.generation i), some true⟩ :: past)
      ((entry, listingCookie listing.generation i) :: took) stop

/-- What a page does to the listing it is of. -/
structure Page.Sound (page : Page P) (listing : DirListing P.NodeState) : Prop where
  /-- It walks through the listing, and ends before the end of it only at an entry that the sink
  refuses or whose lookup fails. -/
  walks : ∃ (stale : PageEvent P) (past rest : Past (pageSig P)) (stop : Nat),
    page.past = stale :: (past ++ rest) ∧ Walk listing page.start past page.accepted stop ∧
      ((∃ n, page.out = .ok n) → rest = [] → listing.buffer.entries.length ≤ stop)
  cookies : ∀ e ∈ page.accepted, e.2 ≠ 0 ∧ e.2 < 2 ^ 31 ∧
    ∃ i listed, listing.buffer.entries[i]? = some listed ∧ e.1.name = listed.name ∧
      splitCookie e.2 = (listing.generation, i + 1)
  errs : ∀ e, page.out = .error (.errno e) → page.accepted = []
  attrs : page.plus = true → ∀ e ∈ page.past.filterMap offering, e.1.attr.isSome = true

namespace Walk

variable {listing : DirListing P.NodeState} {start stop : Nat} {past : Past (pageSig P)}
  {took : List (DirEntry P.NodeState × Nat)}

theorem taking_eq_none {event : PageEvent P} (none_offered : offering event = none) :
    taking event = none := by
  unfold taking
  split
  · cases none_offered
  · rfl

theorem filterMap_taking {past : Past (pageSig P)} (quiet : past.filterMap offering = []) :
    past.filterMap taking = [] := by
  rw [List.filterMap_eq_nil_iff] at quiet ⊢
  exact fun event mem => taking_eq_none (quiet event mem)

theorem missing_offering {name : OsStr} {event : PageEvent P} (missing : Missing name event) :
    offering event = none := by
  unfold offering
  split
  · exact missing.elim
  · rfl

theorem accepted (walk : Walk listing start past took stop) : past.filterMap taking = took := by
  induction walk with
  | here i => rfl
  | skip _ missing _ ih =>
      rw [List.filterMap_cons, taking_eq_none (missing_offering missing)]
      exact ih
  | take _ _ quiet _ ih =>
      rw [List.filterMap_append, filterMap_taking quiet, List.nil_append, List.filterMap_cons, ih]
      rfl

variable (fits : listing.buffer.entries.length ≤ maxListingLen)
  (gen : listing.generation < cookieGenerations)

include fits gen

/-- The cookie of an entry that was taken leads to the entry after it. -/
theorem cookies (walk : Walk listing start past took stop) (e : DirEntry P.NodeState × Nat)
    (mem : e ∈ took) : e.2 ≠ 0 ∧ e.2 < 2 ^ 31 ∧
      ∃ i listed, listing.buffer.entries[i]? = some listed ∧ e.1.name = listed.name ∧
        splitCookie e.2 = (listing.generation, i + 1) := by
  induction walk with
  | here i => cases mem
  | skip _ _ _ ih => exact ih mem
  | @take i stop listed entry looked past took found named _ walk ih =>
      rcases List.mem_cons.mp mem with rfl | mem
      · have inside : i < maxListingLen :=
          Nat.lt_of_lt_of_le (List.getElem?_eq_some_iff.mp found).1 fits
        refine ⟨listingCookie_ne_zero _ _, ?_, i, listed, found, named,
          splitCookie_listingCookie gen inside⟩
        show listingCookie listing.generation i < 2 ^ 31
        rw [listingCookie_eq inside]
        simp only [maxListingLen, cookieIndexMask, cookieIndexBits, cookieGenerations] at inside gen
        omega
      · exact ih mem

/-- The entries that were taken, in order. -/
theorem indices (walk : Walk listing start past took stop) :
    (took.map fun e => (splitCookie e.2).2 - 1).Pairwise (· < ·) ∧ start ≤ stop ∧
      ∀ i ∈ took.map fun e => (splitCookie e.2).2 - 1, start ≤ i ∧ i < stop := by
  induction walk with
  | here i => simp
  | skip _ _ _ ih =>
      obtain ⟨sorted, le, between⟩ := ih
      refine ⟨sorted, by omega, fun j mem => ?_⟩
      have := between j mem
      omega
  | @take i stop listed entry looked past took found named _ walk ih =>
      obtain ⟨sorted, le, between⟩ := ih
      have inside : i < maxListingLen :=
        Nat.lt_of_lt_of_le (List.getElem?_eq_some_iff.mp found).1 fits
      rw [List.map_cons, splitCookie_listingCookie gen inside, Nat.add_sub_cancel]
      refine ⟨List.pairwise_cons.mpr ⟨fun j mem => ?_, sorted⟩, by omega, fun j mem => ?_⟩
      · exact (between j mem).1
      · rcases List.mem_cons.mp mem with rfl | mem
        · omega
        · have := between j mem
          omega

/-- What lies between was taken, or was looked up. -/
theorem passed (walk : Walk listing start past took stop) {i : Nat} (le : start ≤ i)
    (lt : i < stop) : i ∈ took.map (fun e => (splitCookie e.2).2 - 1) ∨
      ∃ listed, listing.buffer.entries[i]? = some listed ∧
        ∃ event ∈ past, Missing listed.name event := by
  induction walk with
  | here j => omega
  | @skip j stop listed event past took found missing _ ih =>
      rcases Nat.eq_or_lt_of_le le with rfl | later
      · exact .inr ⟨listed, found, event, List.mem_cons_self, missing⟩
      · rcases ih (by omega) lt with taken | ⟨listed, found, event, mem, missing⟩
        · exact .inl taken
        · exact .inr ⟨listed, found, event, List.mem_cons_of_mem _ mem, missing⟩
  | @take j stop listed entry looked past took found named _ _ ih =>
      rcases Nat.eq_or_lt_of_le le with rfl | later
      · have inside : j < maxListingLen :=
          Nat.lt_of_lt_of_le (List.getElem?_eq_some_iff.mp found).1 fits
        rw [List.map_cons, splitCookie_listingCookie gen inside]
        exact .inl List.mem_cons_self
      · rcases ih (by omega) lt with taken | ⟨listed, found, event, mem, missing⟩
        · exact .inl (List.mem_cons_of_mem _ taken)
        · exact .inr ⟨listed, found, event, by simp [mem], missing⟩

end Walk

/-! ## Pages go through their listing -/

section Loop

variable {listing : DirListing P.NodeState} {dir : PathNodeRef P} {stale plus : Bool}
  {caller : Caller} {past : Past (pageSig P)} {out : Except Exit (Nat × Option Errno)}
  {index accepted : Nat} {rest : List (DirEntry P.NodeState)}

/-- What the loop of a page did from the index `index` on. -/
def Loops (listing : DirListing P.NodeState) (plus : Bool) (index accepted : Nat)
    (past : Past (pageSig P)) (out : Except Exit (Nat × Option Errno)) : Prop :=
  ∃ (walked left : Past (pageSig P)) (took : List (DirEntry P.NodeState × Nat)) (stop : Nat),
    past = walked ++ left ∧ Walk listing index walked took stop ∧ left.filterMap taking = [] ∧
      (∀ n failure, out = .ok (n, failure) → n = accepted + took.length ∧
        (left = [] → listing.buffer.entries.length ≤ stop)) ∧ (∀ e, out = .error e → e = .panic) ∧
      (plus = true → ∀ e ∈ past.filterMap offering, e.1.attr.isSome = true)

/-- The loop ends here. -/
theorem Loops.stop (left : Past (pageSig P)) (quiet : left.filterMap taking = [])
    (ends : ∀ n failure, out = .ok (n, failure) → n = accepted)
    (before : (∃ n, out = .ok n) → left = [] → listing.buffer.entries.length ≤ index)
    (panics : ∀ e, out = .error e → e = .panic)
    (attrs : plus = true → ∀ e ∈ left.filterMap offering, e.1.attr.isSome = true) :
    Loops listing plus index accepted left out :=
  ⟨[], left, [], index, rfl, .here index, quiet,
    fun n failure ok => ⟨ends n failure ok, before ⟨_, ok⟩⟩, panics, attrs⟩

/-- An entry is offered, after at most a lookup. -/
theorem Loops.send {listed : DirEntry P.NodeState} (entry : DirEntry P.NodeState)
    (looked : Past (pageSig P)) (found : listing.buffer.entries[index]? = some listed)
    (named : entry.name = listed.name) (quiet : looked.filterMap offering = [])
    (attr : plus = true → entry.attr.isSome = true)
    (ih : ∀ {accepted past}, After (replayFrom listing.generation
      (replayed dir stale plus caller) offerEntry rest (index + 1) accepted) past (leave out) →
      Loops listing plus (index + 1) accepted past out)
    (after : After (offerEntry entry (listingCookie listing.generation index) >>= fun took =>
      if took then replayFrom listing.generation (replayed dir stale plus caller) offerEntry rest
        (index + 1) (accepted + 1)
      else .ret (accepted, none)) past (leave out)) :
    Loops listing plus index accepted (looked ++ past) out := by
  obtain ⟨r, past, rfl, more⟩ := After.op_inv after
  clear after
  match r with
  | none =>
      obtain ⟨rfl, rfl⟩ := After.exit_inv more
      refine .stop _ ?_ nofun nofun (by rintro e ⟨⟩; rfl) fun isPlus => ?_
      · rw [List.filterMap_append, Walk.filterMap_taking quiet]
        rfl
      · rw [List.filterMap_append, quiet]
        simpa [offering] using attr isPlus
  | some false =>
      obtain ⟨rfl, rfl⟩ := After.ret_inv more
      refine .stop _ ?_ (by rintro n failure ⟨⟩; rfl) ?_ nofun fun isPlus => ?_
      · rw [List.filterMap_append, Walk.filterMap_taking quiet]
        rfl
      · exact fun _ none_left => by simp at none_left
      · rw [List.filterMap_append, quiet]
        simpa [offering] using attr isPlus
  | some true =>
      obtain ⟨walked, left, took, stop, rfl, walk, quiet', ends, panics, attrs⟩ := ih more
      refine ⟨looked ++ ⟨.offer (entry, listingCookie listing.generation index), some true⟩ ::
        walked, left, _, stop, by simp, .take found named quiet walk, quiet', ?_, panics, ?_⟩
      · intro n failure ok
        obtain ⟨eq, before⟩ := ends n failure ok
        refine ⟨?_, before⟩
        rw [eq, List.length_cons]
        omega
      · intro isPlus e mem
        rw [List.filterMap_append, quiet, List.nil_append, List.filterMap_cons] at mem
        rcases List.mem_cons.mp mem with rfl | mem
        · exact attr isPlus
        · exact attrs isPlus e mem

/-- A name that is not there is passed over. -/
theorem Loops.skip {listed : DirEntry P.NodeState} {event : PageEvent P}
    (found : listing.buffer.entries[index]? = some listed) (missing : Missing listed.name event)
    (loops : Loops listing plus (index + 1) accepted past out) :
    Loops listing plus index accepted (event :: past) out := by
  obtain ⟨walked, left, took, stop, rfl, walk, quiet, ends, panics, attrs⟩ := loops
  refine ⟨event :: walked, left, took, stop, rfl, .skip found missing walk, quiet, ends,
    panics, ?_⟩
  intro isPlus
  rw [List.filterMap_cons, Walk.missing_offering missing]
  exact attrs isPlus

/-- Listed without attributes, an entry is a child. -/
theorem DirBuffer.attr_isSome {buffer : DirBuffer P.NodeState} {listed : DirEntry P.NodeState}
    (mem : listed ∈ buffer.entries) (dots : ∀ state, listed.identity ≠ .child state) :
    listed.attr.isSome = true := by
  cases buffer.pushed listed mem with
  | push name kind state => exact absurd rfl (dots state)
  | pushPlus name attr state => rfl
  | dot attr => rfl
  | dotDot attr => rfl

theorem replayFrom_loops (here : listing.buffer.entries.drop index = rest)
    (after : After (replayFrom listing.generation (replayed dir stale plus caller) offerEntry rest
      index accepted) past (leave out)) : Loops listing plus index accepted past out := by
  induction rest generalizing index accepted past with
  | nil =>
      obtain ⟨rfl, rfl⟩ := After.ret_inv after
      refine .stop [] rfl (by rintro n failure ⟨⟩; rfl) (fun _ _ => ?_) nofun (by simp)
      exact List.drop_eq_nil_iff.mp here
  | cons listed rest ih =>
      have found : listing.buffer.entries[index]? = some listed := by
        rw [← List.head?_drop, here]
        rfl
      have mem : listed ∈ listing.buffer.entries := List.mem_of_getElem? found
      have rest_here : listing.buffer.entries.drop (index + 1) = rest := by
        rw [← List.tail_drop, here]
        rfl
      have next : ∀ {accepted past}, After (replayFrom listing.generation
          (replayed dir stale plus caller) offerEntry rest (index + 1) accepted) past (leave out) →
          Loops listing plus (index + 1) accepted past out := fun after => ih rest_here after
      have listed_sent : ∀ {past} (looked : Past (pageSig P)), looked.filterMap offering = [] →
          (plus = true → listed.attr.isSome = true) →
          After (offerEntry listed (listingCookie listing.generation index) >>= fun took =>
            if took then replayFrom listing.generation (replayed dir stale plus caller) offerEntry
              rest (index + 1) (accepted + 1)
            else .ret (accepted, none)) past (leave out) →
          Loops listing plus index accepted (looked ++ past) out :=
        fun looked quiet attr after => .send listed looked found rfl quiet attr next after
      by_cases child : ∃ state, listed.identity = .child state
      · obtain ⟨state, child⟩ := child
        rw [replayFrom] at after
        unfold replayed at after
        rw [child] at after
        dsimp only at after
        by_cases needs : (stale || (plus && listed.attr.isNone)) = true
        · rw [if_pos needs] at after
          obtain ⟨r, past, rfl, more⟩ := After.op_inv after
          clear after
          match r with
          | none =>
              obtain ⟨rfl, rfl⟩ := After.exit_inv more
              exact .stop _ rfl nofun nofun (by rintro e ⟨⟩; rfl) (by simp [offering])
          | some (.ok none) => exact .skip found rfl (next more)
          | some (.ok (some entry)) =>
              exact .send ⟨listed.name, entry.attr.kind, some entry.attr, .child entry.state⟩ [_] found
                rfl rfl (fun _ => rfl) next more
          | some (.error e) =>
              dsimp only [Prog.bind] at more
              by_cases gone : e = .ENOENT
              · rw [if_pos gone] at more
                exact .skip found ⟨rfl, gone⟩ (next more)
              · rw [if_neg gone] at more
                by_cases usable : (!plus || listed.attr.isSome) = true
                · rw [if_pos usable] at more
                  refine listed_sent [_] rfl (fun isPlus => ?_) more
                  simpa [isPlus] using usable
                · rw [if_neg usable] at more
                  obtain ⟨rfl, rfl⟩ := After.ret_inv more
                  exact .stop _ rfl (by rintro n failure ⟨⟩; rfl) (by simp) nofun (by simp [offering])
        · rw [if_neg needs] at after
          refine listed_sent [] rfl (fun isPlus => ?_) after
          rw [Bool.not_eq_true, Bool.or_eq_false_iff] at needs
          simpa [isPlus] using needs.2
      · have dots : ∀ state, listed.identity ≠ .child state := fun state same => child ⟨state, same⟩
        have sent : replayed (O := DirEntry P.NodeState × Nat) dir stale plus caller listed =
            .ret (.send listed) := by
          unfold replayed
          split
          · rename_i state same
            exact absurd same (dots state)
          · rfl
        rw [replayFrom, sent] at after
        exact listed_sent [] rfl (fun _ => DirBuffer.attr_isSome mem dots) after

end Loop

/-! ## All pages of a listing -/

section Pages

variable {listing : DirListing P.NodeState} {page : Page P}
  (fits : listing.buffer.entries.length ≤ maxListingLen)
  (gen : listing.generation < cookieGenerations)

/-- What a page did after it read the directory's epoch. -/
theorem Page.Of.loops (of : page.Of listing) : ∃ (stale : PageEvent P) (past : Past (pageSig P))
    (out : Except Exit (Nat × Option Errno)), page.past = stale :: past ∧ offering stale = none ∧
      Loops listing page.plus page.start 0 past out ∧
      (∀ n, page.out = .ok n → ∃ failure, out = .ok (n, failure)) ∧
      ∀ e, page.out = .error (.errno e) → out = .ok (0, some e) := by
  obtain ⟨dir, path, caller, after⟩ := of
  obtain ⟨epoch, past, eq, after⟩ := After.op_inv after
  rcases After.bind_inv after with ⟨⟨n, failure⟩, h₁, h₂, rfl, loop, last⟩ | ⟨e, out, loop⟩
  · have loops := replayFrom_loops rfl loop
    match n, failure with
    | 0, some e =>
        obtain ⟨rfl, out⟩ := After.exit_inv last
        rw [List.append_nil] at eq
        refine ⟨_, h₁, .ok (0, some e), eq, rfl, loops, ?_, ?_⟩
        · intro n ok
          rw [out] at ok
          cases ok
        · intro e' err
          rw [out] at err
          cases err
          rfl
    | 0, none | n + 1, _ =>
        obtain ⟨rfl, out⟩ := After.ret_inv last
        rw [List.append_nil] at eq
        refine ⟨_, h₁, .ok _, eq, rfl, loops, ?_, ?_⟩
        · intro n ok
          rw [out] at ok
          cases ok
          exact ⟨_, rfl⟩
        · intro e' err
          rw [out] at err
          cases err
  · have loops := replayFrom_loops rfl loop
    obtain ⟨-, -, -, -, -, -, -, -, panics, -⟩ := loops
    refine ⟨_, past, .error e, eq, rfl, replayFrom_loops rfl loop, ?_, ?_⟩
    · intro n ok
      rw [out] at ok
      cases ok
    · intro e' err
      rw [out, panics e rfl] at err
      cases err

include fits gen

theorem Page.Of.sound (of : page.Of listing) : page.Sound listing := by
  obtain ⟨stale, past, out, eq, none_offered, loops, oks, errs⟩ := of.loops
  obtain ⟨walked, left, took, stop, rfl, walk, quiet, ends, -, attrs⟩ := loops
  have accepted : page.accepted = took := by
    rw [Page.accepted, eq, List.filterMap_cons, Walk.taking_eq_none none_offered]
    rw [List.filterMap_append, walk.accepted, quiet, List.append_nil]
  constructor
  case walks =>
      refine ⟨stale, walked, left, stop, eq, accepted ▸ walk, fun ⟨n, ok⟩ => ?_⟩
      obtain ⟨failure, ok⟩ := oks n ok
      exact (ends n failure ok).2
  case cookies =>
      rw [accepted]
      exact walk.cookies fits gen
  case errs =>
      intro e err
      obtain ⟨none_taken, -⟩ := ends 0 (some e) (errs e err)
      rw [accepted]
      exact List.length_eq_zero_iff.mp (by omega)
  case attrs =>
      intro isPlus
      rw [eq, List.filterMap_cons, none_offered]
      exact attrs isPlus

/-- The indices a page takes lie between where it starts and where the next one does, and it looked
up the names at the others. -/
theorem Page.Of.between (of : page.Of listing) : page.indices.Pairwise (· < ·) ∧
    page.start ≤ page.next ∧ (∀ i ∈ page.indices, page.start ≤ i ∧ i < page.next) ∧
      ∀ i, page.start ≤ i → i < page.next → i ∈ page.indices ∨ page.Missed listing i := by
  obtain ⟨⟨stale, walked, left, stop, eq, walk, -⟩, cookies, -, -⟩ := of.sound fits gen
  obtain ⟨sorted, -, inside⟩ := walk.indices fits gen
  have sorted : page.indices.Pairwise (· < ·) := sorted
  have inside : ∀ i ∈ page.indices, page.start ≤ i ∧ i < stop := inside
  unfold Page.next
  rcases List.eq_nil_or_concat page.accepted with empty | ⟨front, last, concat⟩
  · rw [empty]
    refine ⟨sorted, Nat.le_refl _, ?_, fun i le lt => ?_⟩
    · simp [Page.indices, empty]
    · exact absurd lt (Nat.not_lt.mpr le)
  · obtain ⟨-, -, i, -, -, -, cookie⟩ := cookies last (by simp [concat])
    have index : (splitCookie last.2).2 = i + 1 := by rw [cookie]
    have indices : page.indices = front.map (fun e => (splitCookie e.2).2 - 1) ++ [i] := by
      simp [Page.indices, concat, index]
    have ends : page.accepted.getLast? = some last := by simp [concat]
    have last_inside := inside i (by simp [indices])
    rw [ends, Option.elim_some, index]
    refine ⟨sorted, by omega, fun j mem => ⟨(inside j mem).1, ?_⟩, fun j le lt => ?_⟩
    · rw [indices] at sorted mem
      rcases List.mem_append.mp mem with mem | mem
      · have := (List.pairwise_append.mp sorted).2.2 j mem i (by simp)
        omega
      · cases List.mem_singleton.mp mem
        omega
    · rcases walk.passed fits gen le (by omega) with taken | ⟨listed, found, event, mem, missing⟩
      · exact .inl taken
      · exact .inr ⟨listed, found, event, by simp [eq, mem], missing⟩

theorem Paging.sorted {next : Nat} {pages : List (Page P)} (paging : Paging listing next pages) :
    (pages.flatMap Page.indices).Pairwise (· < ·) ∧ (∀ i ∈ pages.flatMap Page.indices, i < next) ∧
      (∀ i < next, i ∈ pages.flatMap Page.indices ∨ ∃ page ∈ pages, page.Missed listing i) ∧
      ∀ page ∈ pages, page.Of listing := by
  induction paging with
  | start => simp
  | @page next pages page _ start of ih =>
      obtain ⟨sorted, below, passed, each⟩ := ih
      obtain ⟨sorted', le, between, passed'⟩ := of.between fits gen
      simp only [List.flatMap_append, List.flatMap_cons, List.flatMap_nil, List.append_nil]
      refine ⟨List.pairwise_append.mpr ⟨sorted, sorted', fun i old j new => ?_⟩, fun i mem => ?_,
        fun i lt => ?_, fun other mem => ?_⟩
      · have := below i old
        have := between j new
        omega
      · rcases List.mem_append.mp mem with mem | mem
        · have := below i mem
          omega
        · exact (between i mem).2
      · rcases Nat.lt_or_ge i next with before | from_start
        · rcases passed i before with mem | ⟨other, mem, missed⟩
          · exact .inl (List.mem_append_left _ mem)
          · exact .inr ⟨other, List.mem_append_left _ mem, missed⟩
        · rcases passed' i (by omega) lt with mem | missed
          · exact .inl (List.mem_append_right _ mem)
          · exact .inr ⟨page, by simp, missed⟩
      · rcases List.mem_append.mp mem with mem | mem
        · exact each other mem
        · cases List.mem_singleton.mp mem
          exact of

end Pages

section Attrs

variable {O : Type} {emit emit' : DirEntry P.NodeState → Nat → Body P O Exit Bool}
  (same : ∀ e next, e.attr.isSome = true → emit e next = emit' e next)

include same

end Attrs

/-- A listed name, without attributes. -/
def plainListed : DirEntry Unit := ⟨[97], .regularFile, none, .child ()⟩

/-- Another one, with attributes. -/
def plusListed : DirEntry Unit :=
  ⟨[98], .regularFile, some ⟨.regularFile, 0, 1⟩, .child ()⟩

def twoListed : DirListing Unit where
  arc := 0
  generation := 3
  epoch := 0
  buffer.entries := [plainListed, plusListed]
  buffer.pushed := by
    intro e mem
    rcases List.mem_pair.mp mem with rfl | rfl
    · exact .push _ _ _
    · exact .pushPlus [98] ⟨.regularFile, 0, 1⟩ ()

end TypedFuse
