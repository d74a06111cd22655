import TypedFuse.Lib.Weigh
import TypedFuse.Memory.Filesystem
import TypedFuse.Path.Wiring

/-!
# The books of the in-memory filesystem

`MemoryFs` counts names three times: the entries of its directories name nodes, the node table counts
the links of each node, and the data of a node has an `nlink`.  `Books` is that the three agree up to
what a request under way still owes: `a` is what the `nlink` of a node has too much, and `b` what its
names are over its links.  Each section of a callback changes the books by a known amount
(`Books.update`, `Books.relink`, `Books.insert`), so that a callback keeps them if the amounts cancel.

Names may be fewer than links: entries made in a directory that was removed already go when the
directory goes.  With `exact` they are not, which takes that no request makes such an entry.
-/

namespace TypedFuse

open Std NodeTable

namespace MemoryFs

/-! ## What the data of a node says -/

namespace NodeData

/-- The entries of a directory. -/
def entries (d : NodeData) : ExtTreeMap OsStr DirEntry :=
  match d.content with
  | .dir entries => entries
  | _ => ∅

/-- How many entries name the node `id`. -/
def naming (d : NodeData) (id : NodeId) : Nat :=
  d.entries.weigh fun _ e => if e.id = id then 1 else 0

/-- How many entries are of directories. -/
def subdirs (d : NodeData) : Nat := d.entries.weigh fun _ e => if e.kind = .directory then 1 else 0

/-- Directories have entries, and nothing else has. -/
def Shaped (d : NodeData) : Prop := d.kind = .directory ↔ ∃ entries, d.content = .dir entries

/-- The part of `nlink` that comes from the node's own links: a directory has its name and `.`. -/
def base (d : NodeData) (links : Nat) : Nat := if d.kind = .directory then 2 * links else links

theorem entries_eq {d : NodeData} {es : ExtTreeMap OsStr DirEntry} (dir : d.content = .dir es) :
    d.entries = es := by
  unfold entries
  rw [dir]

theorem Shaped.content {d : NodeData} (shaped : d.Shaped) (dir : d.kind = .directory) :
    d.content = .dir d.entries := by
  obtain ⟨es, content⟩ := shaped.mp dir
  rw [entries_eq content, content]

theorem Shaped.entries_eq_empty {d : NodeData} (shaped : d.Shaped) (plain : d.kind ≠ .directory) :
    d.entries = ∅ := by
  unfold entries
  split
  · rename_i es dir
    exact absurd (shaped.mpr ⟨es, dir⟩) plain
  · rfl

theorem naming_of_empty {d : NodeData} (empty : d.entries = ∅) (id : NodeId) : d.naming id = 0 := by
  unfold naming
  rw [empty]
  exact ExtTreeMap.weigh_eq_zero fun k v there => by simp at there

theorem subdirs_of_empty {d : NodeData} (empty : d.entries = ∅) : d.subdirs = 0 := by
  unfold subdirs
  rw [empty]
  exact ExtTreeMap.weigh_eq_zero fun k v there => by simp at there

theorem naming_pos {d : NodeData} {name : OsStr} {e : DirEntry} (there : d.entries[name]? = some e) :
    0 < d.naming e.id := by
  have le := ExtTreeMap.le_weigh
    (f := fun (_ : OsStr) (e' : DirEntry) => if e'.id = e.id then 1 else 0) there
  rw [if_pos rfl] at le
  exact le

theorem subdirs_pos {d : NodeData} {name : OsStr} {e : DirEntry} (there : d.entries[name]? = some e)
    (dir : e.kind = .directory) : 0 < d.subdirs := by
  have le := ExtTreeMap.le_weigh
    (f := fun (_ : OsStr) (e : DirEntry) => if e.kind = .directory then 1 else 0) there
  rw [if_pos dir] at le
  exact le

/-- Other data that says the same about names. -/
structure Mild (d d' : NodeData) : Prop where
  kind : d'.kind = d.kind
  shaped : d.Shaped → d'.Shaped
  entries : d'.entries = d.entries
  nlink : d'.nlink = d.nlink

theorem Mild.refl (d : NodeData) : d.Mild d := ⟨rfl, fun shaped => shaped, rfl, rfl⟩

theorem Mild.trans {d d' d'' : NodeData} (first : d.Mild d') (second : d'.Mild d'') : d.Mild d'' where
  kind := second.kind.trans first.kind
  shaped := fun shaped => second.shaped (first.shaped shaped)
  entries := second.entries.trans first.entries
  nlink := second.nlink.trans first.nlink

/-- The bytes of a file are no names. -/
theorem mild_file {d : NodeData} {bytes : List UInt8} (file : d.content = .file bytes)
    (bytes' : List UInt8) : d.Mild { d with content := .file bytes' } where
  kind := rfl
  shaped := fun shaped => by
    refine ⟨fun isDir => ?_, fun ⟨es, dir⟩ => nomatch dir⟩
    obtain ⟨es, dir⟩ := shaped.mp isDir
    rw [file] at dir
    cases dir
  entries := by simp only [entries, file]
  nlink := rfl

end NodeData

/-! ## One name of a directory -/

/-- Entries with another one, or none, under a name. -/
def bound (name : OsStr) (new : Option DirEntry) (es : ExtTreeMap OsStr DirEntry) :
    ExtTreeMap OsStr DirEntry :=
  match new with
  | none => es.erase name
  | some e => es.insert name e

/-- How often an entry names the node `id`. -/
def namesIn (e : Option DirEntry) (id : NodeId) : Nat := e.elim 0 fun e => if e.id = id then 1 else 0

/-- Whether an entry is of a directory. -/
def dirsIn (e : Option DirEntry) : Nat := e.elim 0 fun e => if e.kind = .directory then 1 else 0

theorem bound_getElem? (name name' : OsStr) (new : Option DirEntry)
    (es : ExtTreeMap OsStr DirEntry) :
    (bound name new es)[name']? = if name = name' then new else es[name']? := by
  cases new with
  | none => simp [bound, ExtTreeMap.getElem?_erase]
  | some e => simp [bound, ExtTreeMap.getElem?_insert]

theorem weigh_bound (f : OsStr → DirEntry → Nat) (name : OsStr) (new : Option DirEntry)
    (es : ExtTreeMap OsStr DirEntry) :
    (bound name new es).weigh f + (es[name]?).elim 0 (f name) = es.weigh f + new.elim 0 (f name) := by
  cases new with
  | none => exact ExtTreeMap.weigh_erase
  | some e => exact ExtTreeMap.weigh_insert

theorem NodeData.onEntries_eq {d : NodeData} {es : ExtTreeMap OsStr DirEntry}
    (dir : d.content = .dir es) (f : ExtTreeMap OsStr DirEntry → ExtTreeMap OsStr DirEntry) :
    d.onEntries f = { d with content := .dir (f es) } := by
  unfold onEntries
  rw [dir]

/-! ## The books -/

/-- The cells with other data in one of them. -/
def Cells.set (x : Cells) (cell : Nat) (d : NodeData) : Cells :=
  { x with data := x.data.insert cell d }

/-- The cells with one more. -/
def Cells.add (x : Cells) (d : NodeData) : Cells := ⟨x.next + 1, x.data.insert x.next d⟩

/-- The node `id` is in the table, and its lock is not poisoned. -/
structure Stored (t : NodeTable Nat) (x : Cells) (id : NodeId) (slot : Slot Nat) (d : NodeData) :
    Prop where
  live : t.map[id]? = some slot
  data : x.data[slot.record.payload]? = some d

/-- How many entries of one node name the node `id`. -/
def namingAt (x : Cells) (id : NodeId) (slot : Slot Nat) : Nat :=
  (x.data[slot.record.payload]?).elim 0 (·.naming id)

/-- How many entries of directories in the table name the node `id`. -/
def namesOf (t : NodeTable Nat) (x : Cells) (id : NodeId) : Nat :=
  t.map.weigh fun _ slot => namingAt x id slot

/-- The links of a node; none if it is not in the table. -/
def linksOf (t : NodeTable Nat) (id : NodeId) : Nat := (t.map[id]?).elim 0 Slot.links

structure Books (exact : Prop) (t : NodeTable Nat) (x : Cells) (a b : NodeId → Int) : Prop where
  stored : ∀ (id : NodeId) (slot : Slot Nat), t.map[id]? = some slot →
    ∃ d, Stored t x id slot d ∧ d.Shaped
  apart : ∀ (id id' : NodeId) (slot slot' : Slot Nat), t.map[id]? = some slot →
    t.map[id']? = some slot' → slot.record.payload = slot'.record.payload → id = id'
  below : ∀ (id : NodeId) (slot : Slot Nat), t.map[id]? = some slot → slot.record.payload < x.next
  nlink : ∀ id slot d, Stored t x id slot d →
    (d.nlink : Int) = d.base slot.links + d.subdirs + a id
  single : ∀ id slot d, Stored t x id slot d → d.kind = .directory → slot.links ≤ 1
  kinds : ∀ id slot d (name : OsStr) (e : DirEntry), Stored t x id slot d → d.entries[name]? = some e →
    ∀ slot' d', Stored t x e.id slot' d' → d'.kind = e.kind
  named : ∀ id, (namesOf t x id : Int) ≤ linksOf t id + b id
  exactly : exact → ∀ id, (namesOf t x id : Int) = linksOf t id + b id
  emptied : exact → ∀ id slot d, Stored t x id slot d → slot.links = 0 → d.entries = ∅

/-- What the names are over the links between requests: the root has a link and no name. -/
def owing (id : NodeId) : Int := if id = NodeId.root then -1 else 0

variable {exact : Prop} {t t' : NodeTable Nat} {x x' : Cells} {a b a' b' : NodeId → Int} {id : NodeId}
  {slot slot' : Slot Nat} {d d' : NodeData}

theorem Stored.namingAt_eq (stored : Stored t x id slot d) (k : NodeId) :
    namingAt x k slot = d.naming k := by
  unfold namingAt
  rw [stored.data]
  rfl

theorem Stored.unique (stored : Stored t x id slot d) (stored' : Stored t x id slot' d') :
    slot' = slot ∧ d' = d := by
  have slots := stored'.live.symm.trans stored.live
  cases slots
  have datas := stored'.data.symm.trans stored.data
  cases datas
  exact ⟨rfl, rfl⟩

theorem linksOf_live (live : t.map[id]? = some slot) : linksOf t id = slot.links := by
  unfold linksOf
  rw [live]
  rfl

theorem linksOf_dead (dead : t.map[id]? = none) : linksOf t id = 0 := by
  unfold linksOf
  rw [dead]
  rfl

theorem Stored.naming_le (stored : Stored t x id slot d) (k : NodeId) :
    d.naming k ≤ namesOf t x k := by
  rw [← stored.namingAt_eq k]
  exact ExtTreeMap.le_weigh (f := fun _ s => namingAt x k s) stored.live

namespace Books

theorem cast (books : Books exact t x a b) (left : a = a') (right : b = b') :
    Books exact t x a' b' := by
  rw [← left, ← right]
  exact books

theorem shaped (books : Books exact t x a b) (stored : Stored t x id slot d) : d.Shaped := by
  obtain ⟨d', here, shaped⟩ := books.stored id slot stored.live
  obtain ⟨-, rfl⟩ := stored.unique here
  exact shaped

/-- An entry of a node names a node that has links, if nothing is owed to it. -/
theorem entry_linked (books : Books exact t x a b) (stored : Stored t x id slot d) {name : OsStr}
    {e : DirEntry} (there : d.entries[name]? = some e) (even : b e.id ≤ 0) :
    ∃ slot', t.map[e.id]? = some slot' ∧ slot'.links ≠ 0 := by
  have pos := NodeData.naming_pos there
  have le := stored.naming_le e.id
  have named := books.named e.id
  have links : linksOf t e.id ≠ 0 := by omega
  cases live : t.map[e.id]? with
  | none => exact absurd (linksOf_dead live) links
  | some slot' => exact ⟨slot', rfl, linksOf_live live ▸ links⟩

/-- Only the data of one node changes with its cell. -/
theorem stored_set (books : Books exact t x a b) (stored : Stored t x id slot d) {j : NodeId}
    {s : Slot Nat} {e : NodeData} : Stored t (x.set slot.record.payload d') j s e ↔
      (j = id ∧ s = slot ∧ e = d') ∨ (j ≠ id ∧ Stored t x j s e) := by
  constructor
  · rintro ⟨live, data⟩
    by_cases same : j = id
    · subst same
      have slots := live.symm.trans stored.live
      cases slots
      rw [Cells.set, ExtTreeMap.getElem?_insert_self] at data
      cases data
      exact .inl ⟨rfl, rfl, rfl⟩
    · have other : slot.record.payload ≠ s.record.payload := fun eq =>
        same (books.apart j id s slot live stored.live eq.symm)
      have data : x.data[s.record.payload]? = some e := by
        rw [← data, Cells.set, ExtTreeMap.getElem?_insert, if_neg (by simpa using other)]
      exact .inr ⟨same, live, data⟩
  · rintro (⟨rfl, rfl, rfl⟩ | ⟨other, live, data⟩)
    · exact ⟨stored.live, ExtTreeMap.getElem?_insert_self⟩
    · have apart : slot.record.payload ≠ s.record.payload := fun eq =>
        other (books.apart j id s slot live stored.live eq.symm)
      refine ⟨live, ?_⟩
      rw [Cells.set, ExtTreeMap.getElem?_insert, if_neg (by simpa using apart), data]

theorem namesOf_set (books : Books exact t x a b) (stored : Stored t x id slot d) (k : NodeId) :
    namesOf t (x.set slot.record.payload d') k + d.naming k = namesOf t x k + d'.naming k := by
  have here : Stored t (x.set slot.record.payload d') id slot d' :=
    (books.stored_set stored).mpr (.inl ⟨rfl, rfl, rfl⟩)
  have change : namesOf t (x.set slot.record.payload d') k +
        t.map.weightAt (fun _ s => namingAt x k s) id =
      namesOf t x k + t.map.weightAt (fun _ s => namingAt (x.set slot.record.payload d') k s) id :=
    ExtTreeMap.weigh_change id fun j other => by
      cases live : t.map[j]? with
      | none => rw [ExtTreeMap.weightAt_none live, ExtTreeMap.weightAt_none live]
      | some s =>
          obtain ⟨e, there, -⟩ := books.stored j s live
          have there' : Stored t (x.set slot.record.payload d') j s e :=
            (books.stored_set stored).mpr (.inr ⟨other, there⟩)
          rw [ExtTreeMap.weightAt_some live, ExtTreeMap.weightAt_some live, there.namingAt_eq,
            there'.namingAt_eq]
  rw [ExtTreeMap.weightAt_some stored.live, ExtTreeMap.weightAt_some stored.live,
    stored.namingAt_eq, here.namingAt_eq] at change
  exact change

/-- New data for one node. -/
theorem update (books : Books exact t x a b) (stored : Stored t x id slot d) (shaped : d'.Shaped)
    (kind : d'.kind = d.kind)
    (agree : ∀ (name : OsStr) (e : DirEntry), d'.entries[name]? = some e → ∀ s d₁,
      Stored t x e.id s d₁ → d₁.kind = e.kind)
    (kept : exact → slot.links = 0 → d'.entries = ∅)
    (left : ∀ k, a' k = a k + if k = id then (d'.nlink - d'.subdirs : Int) - (d.nlink - d.subdirs)
      else 0)
    (right : ∀ k, b' k = b k + (d'.naming k - d.naming k)) :
    Books exact t (x.set slot.record.payload d') a' b' := by
  have names : ∀ k, namesOf t (x.set slot.record.payload d') k + d.naming k =
      namesOf t x k + d'.naming k := books.namesOf_set stored
  have kindOf : ∀ j s e, Stored t (x.set slot.record.payload d') j s e → ∃ e₀,
      Stored t x j s e₀ ∧ e₀.kind = e.kind := by
    intro j s e there
    rcases (books.stored_set stored).mp there with ⟨rfl, rfl, rfl⟩ | ⟨-, there⟩
    · exact ⟨d, stored, kind.symm⟩
    · exact ⟨e, there, rfl⟩
  constructor
  case stored =>
      intro j s live
      by_cases same : j = id
      · subst same
        have slots := live.symm.trans stored.live
        cases slots
        exact ⟨d', (books.stored_set stored).mpr (.inl ⟨rfl, rfl, rfl⟩), shaped⟩
      · obtain ⟨e, there, fits⟩ := books.stored j s live
        exact ⟨e, (books.stored_set stored).mpr (.inr ⟨same, there⟩), fits⟩
  case apart => exact books.apart
  case below => exact books.below
  case nlink =>
      intro j s e there
      have amount := left j
      rcases (books.stored_set stored).mp there with ⟨rfl, rfl, rfl⟩ | ⟨other, there⟩
      · have before := books.nlink j s d stored
        have based : e.base s.links = d.base s.links := by
          unfold NodeData.base
          rw [kind]
        rw [if_pos rfl] at amount
        rw [based]
        omega
      · have before := books.nlink j s e there
        rw [if_neg other] at amount
        omega
  case single =>
      intro j s e there dir
      obtain ⟨e₀, there, same⟩ := kindOf j s e there
      exact books.single j s e₀ there (same.trans dir)
  case kinds =>
      intro j s e name f there found s' e' target
      obtain ⟨e₀, target₀, same⟩ := kindOf f.id s' e' target
      rw [← same]
      rcases (books.stored_set stored).mp there with ⟨rfl, rfl, rfl⟩ | ⟨-, there⟩
      · exact agree name f found s' e₀ target₀
      · exact books.kinds j s e name f there found s' e₀ target₀
  case named =>
      intro k
      have before := books.named k
      have amount := right k
      have change := names k
      omega
  case exactly =>
      intro exact k
      have before := books.exactly exact k
      have amount := right k
      have change := names k
      omega
  case emptied =>
      intro exact j s e there unlinked
      rcases (books.stored_set stored).mp there with ⟨rfl, rfl, rfl⟩ | ⟨-, there⟩
      · exact kept exact unlinked
      · exact books.emptied exact j s e there unlinked

/-- New data for one node that leaves its entries as they are. -/
theorem recount (books : Books exact t x a b) (stored : Stored t x id slot d) (n : Nat)
    (left : ∀ k, a' k = a k + if k = id then (n : Int) - d.nlink else 0) :
    Books exact t (x.set slot.record.payload { d with nlink := n }) a' b := by
  have shaped : d.Shaped := books.shaped stored
  refine books.update stored shaped rfl (fun name f found s d₁ target => ?_)
    (fun exact unlinked => ?_) (fun k => ?_) fun k => ?_
  · exact books.kinds id slot d name f stored found s d₁ target
  · exact books.emptied exact id slot d stored unlinked
  · have same : ({ d with nlink := n } : NodeData).subdirs = d.subdirs := rfl
    rw [left k, same]
    simp only
    split <;> omega
  · have same : ({ d with nlink := n } : NodeData).naming k = d.naming k := rfl
    rw [same]
    omega

/-- Another entry, or none, under one name of a directory. -/
theorem rebind (books : Books exact t x a b) (stored : Stored t x id slot d)
    {es : ExtTreeMap OsStr DirEntry} (dir : d.content = .dir es) (name : OsStr)
    (new : Option DirEntry) (n : Nat) (made : d' = { d with content := .dir (bound name new es), nlink := n })
    (agree : ∀ e, new = some e → ∀ s d₁, Stored t x e.id s d₁ → d₁.kind = e.kind)
    (kept : exact → new ≠ none → slot.links ≠ 0)
    (left : ∀ k, a' k = a k +
      if k = id then (n - d.nlink : Int) - (dirsIn new - dirsIn es[name]?) else 0)
    (right : ∀ k, b' k = b k + (namesIn new k - namesIn es[name]? k)) :
    Books exact t (x.set slot.record.payload d') a' b' := by
  have before : d.entries = es := NodeData.entries_eq dir
  have after : d'.entries = bound name new es := by
    subst made
    rfl
  have kind : d'.kind = d.kind := by rw [made]
  have nlink : d'.nlink = n := by rw [made]
  have naming : ∀ k, d'.naming k + namesIn es[name]? k = d.naming k + namesIn new k := by
    intro k
    unfold NodeData.naming
    rw [before, after]
    exact weigh_bound _ name new es
  have subdirs : d'.subdirs + dirsIn es[name]? = d.subdirs + dirsIn new := by
    unfold NodeData.subdirs
    rw [before, after]
    exact weigh_bound _ name new es
  refine books.update stored ⟨fun _ => ⟨_, by rw [made]⟩, fun _ => ?_⟩ kind
    (fun name' f found s d₁ target => ?_) (fun exact unlinked => ?_) (fun k => ?_) fun k => ?_
  · rw [kind]
    exact (books.shaped stored).mpr ⟨es, dir⟩
  · rw [after, bound_getElem?] at found
    split at found
    · exact agree f found s d₁ target
    · exact books.kinds id slot d name' f stored (before ▸ found) s d₁ target
  · have none : new = none := by
      by_contra some
      exact kept exact some unlinked
    have empty : es = ∅ := before ▸ books.emptied exact id slot d stored unlinked
    rw [after, none, empty]
    exact ExtTreeMap.ext_getElem? fun k => by simp [bound]
  · rw [left k, nlink]
    split <;> omega
  · have change := naming k
    rw [right k]
    omega

/-! ### Other links -/

/-- A slot with other links, or none where it had its last one. -/
structure Relinks (t t' : NodeTable Nat) (id : NodeId) (slot : Slot Nat) (links : Nat) : Prop where
  others : ∀ k : NodeId, k ≠ id → t'.map[k]? = t.map[k]?
  here : (∃ slot' : Slot Nat, t'.map[id]? = some slot' ∧ slot'.record = slot.record ∧
    slot'.links = links) ∨ (t'.map[id]? = none ∧ links = 0)

theorem Relinks.linksOf_eq {links : Nat} (re : Relinks t t' id slot links) (k : NodeId) :
    linksOf t' k = if k = id then links else linksOf t k := by
  by_cases same : k = id
  · subst same
    rw [if_pos rfl]
    rcases re.here with ⟨slot', live, -, links⟩ | ⟨gone, zero⟩
    · rw [linksOf_live live, links]
    · rw [linksOf_dead gone, zero]
  · rw [if_neg same]
    unfold linksOf
    rw [re.others k same]

/-- What is stored afterwards was stored before, with the same data. -/
theorem Relinks.stored_before {links : Nat} (re : Relinks t t' id slot links)
    (stored : Stored t x id slot d) {j : NodeId} {s : Slot Nat} {e : NodeData}
    (there : Stored t' x j s e) :
    (j = id ∧ e = d ∧ s.links = links) ∨ (j ≠ id ∧ Stored t x j s e) := by
  by_cases same : j = id
  · subst same
    rcases re.here with ⟨slot', live, record, eq⟩ | ⟨gone, -⟩
    · have slots := live.symm.trans there.live
      cases slots
      have data := there.data
      rw [record, stored.data] at data
      cases data
      exact .inl ⟨rfl, rfl, eq⟩
    · have live := there.live
      rw [gone] at live
      cases live
  · exact .inr ⟨same, (re.others j same) ▸ there.live, there.data⟩

/-- Other links for one node. -/
theorem relink (books : Books exact t x a b) (stored : Stored t x id slot d) {links : Nat}
    (re : Relinks t t' id slot links) (one : d.kind = .directory → links ≤ 1)
    (empty : links = 0 → d.entries = ∅)
    (left : ∀ k, a' k = a k + if k = id then (d.base slot.links - d.base links : Int) else 0)
    (right : ∀ k, b' k = b k + if k = id then (slot.links - links : Int) else 0) :
    Books exact t' x a' b' := by
  have record : ∀ (j : NodeId) (s : Slot Nat), t'.map[j]? = some s →
      ∃ s₀ : Slot Nat, t.map[j]? = some s₀ ∧ s.record = s₀.record := by
    intro j s live
    by_cases same : j = id
    · subst same
      rcases re.here with ⟨slot', live', record, -⟩ | ⟨gone, -⟩
      · have slots := live'.symm.trans live
        cases slots
        exact ⟨slot, stored.live, record⟩
      · rw [gone] at live
        cases live
    · exact ⟨s, (re.others j same) ▸ live, rfl⟩
  have names : ∀ k, namesOf t' x k = namesOf t x k := by
    intro k
    refine ExtTreeMap.weigh_congr fun j => ?_
    by_cases same : j = id
    · subst same
      rw [ExtTreeMap.weightAt_some stored.live, stored.namingAt_eq]
      rcases re.here with ⟨slot', live, record, -⟩ | ⟨gone, zero⟩
      · have here : Stored t' x j slot' d := ⟨live, by rw [record]; exact stored.data⟩
        rw [ExtTreeMap.weightAt_some live, here.namingAt_eq]
      · rw [ExtTreeMap.weightAt_none gone, NodeData.naming_of_empty (empty zero)]
    · unfold ExtTreeMap.weightAt
      rw [re.others j same]
  constructor
  case stored =>
      intro j s live
      obtain ⟨s₀, live₀, same⟩ := record j s live
      obtain ⟨e, there, fits⟩ := books.stored j s₀ live₀
      exact ⟨e, ⟨live, by rw [same]; exact there.data⟩, fits⟩
  case apart =>
      intro j j' s s' live live' same
      obtain ⟨s₀, live₀, eq⟩ := record j s live
      obtain ⟨s₁, live₁, eq'⟩ := record j' s' live'
      rw [eq, eq'] at same
      exact books.apart j j' s₀ s₁ live₀ live₁ same
  case below =>
      intro j s live
      obtain ⟨s₀, live₀, eq⟩ := record j s live
      rw [eq]
      exact books.below j s₀ live₀
  case nlink =>
      intro j s e there
      have amount := left j
      rcases re.stored_before stored there with ⟨rfl, rfl, eq⟩ | ⟨other, there⟩
      · have before := books.nlink j slot e stored
        rw [if_pos rfl] at amount
        rw [eq]
        omega
      · have before := books.nlink j s e there
        rw [if_neg other] at amount
        omega
  case single =>
      intro j s e there dir
      rcases re.stored_before stored there with ⟨rfl, rfl, eq⟩ | ⟨-, there⟩
      · rw [eq]
        exact one dir
      · exact books.single j s e there dir
  case kinds =>
      have before : ∀ j s e, Stored t' x j s e → ∃ s₀, Stored t x j s₀ e := by
        intro j s e there
        rcases re.stored_before stored there with ⟨rfl, rfl, -⟩ | ⟨-, there⟩
        · exact ⟨slot, stored⟩
        · exact ⟨s, there⟩
      intro j s e name f there found s' e' target
      obtain ⟨s₀, there⟩ := before j s e there
      obtain ⟨s₁, target⟩ := before f.id s' e' target
      exact books.kinds j s₀ e name f there found s₁ e' target
  case named =>
      intro k
      have before := books.named k
      have amount := right k
      have here := linksOf_live stored.live
      rw [names, re.linksOf_eq]
      split
      · rename_i same
        subst same
        rw [if_pos rfl] at amount
        omega
      · rename_i other
        rw [if_neg other] at amount
        omega
  case exactly =>
      intro exact k
      have before := books.exactly exact k
      have amount := right k
      have here := linksOf_live stored.live
      rw [names, re.linksOf_eq]
      split
      · rename_i same
        subst same
        rw [if_pos rfl] at amount
        omega
      · rename_i other
        rw [if_neg other] at amount
        omega
  case emptied =>
      intro exact j s e there unlinked
      rcases re.stored_before stored there with ⟨rfl, rfl, eq⟩ | ⟨-, there⟩
      · exact empty (eq ▸ unlinked)
      · exact books.emptied exact j s e there unlinked

/-- The nodes of the table stay where they are, if the node keeps a link. -/
theorem Relinks.stored_after {links : Nat} (re : Relinks t t' id slot links)
    (live : t.map[id]? = some slot) (linked : links ≠ 0) {j : NodeId} {s : Slot Nat} {e : NodeData}
    (there : Stored t x j s e) :
    ∃ s', Stored t' x j s' e ∧ s'.links = if j = id then links else s.links := by
  by_cases same : j = id
  · subst same
    have slots := there.live.symm.trans live
    cases slots
    rcases re.here with ⟨s', live', record, eq⟩ | ⟨-, none⟩
    · exact ⟨s', ⟨live', by rw [record]; exact there.data⟩, by rw [if_pos rfl]; exact eq⟩
    · exact absurd none linked
  · exact ⟨s, ⟨(re.others j same).trans there.live, there.data⟩, (if_neg same).symm⟩

theorem Relinks.live_iff {links : Nat} (re : Relinks t t' id slot links)
    (live : t.map[id]? = some slot) (linked : links ≠ 0) (j : NodeId) :
    (∃ s, t'.map[j]? = some s) ↔ ∃ s, t.map[j]? = some s := by
  by_cases same : j = id
  · subst same
    refine ⟨fun _ => ⟨slot, live⟩, fun _ => ?_⟩
    rcases re.here with ⟨s', live', -, -⟩ | ⟨-, none⟩
    · exact ⟨s', live'⟩
    · exact absurd none linked
  · rw [re.others j same]

theorem Relinks.of_settle (eq : t' = t.settle id slot')
    (record : slot'.record = slot.record) : Relinks t t' id slot slot'.links := by
  subst eq
  constructor
  case others =>
      intro k other
      rw [settle_map, if_neg (Ne.symm other)]
  case here =>
      rw [settle_map, if_pos rfl]
      cases drop : slot'.droppable with
      | true => exact .inr ⟨rfl, (Slot.droppable_iff.mp drop).1⟩
      | false => exact .inl ⟨slot', rfl, record, rfl⟩

theorem Relinks.removeLink (tidy : t.Tidy) (live : t.map[id]? = some slot) :
    Relinks t (t.removeLink id) id slot (slot.links - 1) := by
  rcases removeLink_cases tidy id with ⟨dead, -⟩ | ⟨slot', live', eq⟩
  · rw [live] at dead
    cases dead
  · rw [live] at live'
    cases live'
    exact .of_settle eq rfl

theorem Relinks.addLink (live : t.map[id]? = some slot) (add : t.addLink id = (some (), t')) :
    Relinks t t' id slot (slot.links + 1) := by
  rcases addLink_cases t id with ⟨dead, -⟩ | eq | ⟨slot', live', eq⟩
  · rw [live] at dead
    cases dead
  · rw [add] at eq
    cases eq
  · rw [live] at live'
    cases live'
    rw [add] at eq
    exact .of_settle (Prod.mk.inj eq).2 rfl

theorem Relinks.reparent (tidy : t.Tidy) (live : t.map[id]? = some slot) (parent : NodeId) :
    Relinks t (t.reparent id parent) id slot slot.links := by
  rcases reparent_cases tidy id parent with ⟨dead, -⟩ | ⟨slot', live', eq⟩
  · rw [live] at dead
    cases dead
  · rw [live] at live'
    cases live'
    have re : Relinks t (t.reparent id parent) id slot ({ slot with parent } : Slot Nat).links :=
      .of_settle eq rfl
    exact re

/-! ### A new node -/

/-- A new node without entries, with its first link. -/
theorem insert (books : Books exact t x a b) {given : List (Nat × Nat)} (num : t.Numbered given)
    {parent : NodeId} (made : t.insert x.next parent = (some id, t')) (shaped : d.Shaped)
    (empty : d.entries = ∅) (nlink : d.nlink = d.base 1) (settled : a id = 0) (even : b id ≤ 0)
    (right : ∀ k, b' k = b k - if k = id then 1 else 0) :
    Books exact t' (x.add d) a b' := by
  obtain ⟨dead, generation, map⟩ := num.insert_map made
  let fresh : Slot Nat := freshSlot t.nextPtr generation x.next parent
  have liveAt : ∀ (j : NodeId) (s : Slot Nat), t'.map[j]? = some s →
      (j = id ∧ s = fresh) ∨ (j ≠ id ∧ t.map[j]? = some s) := by
    intro j s live
    rw [map] at live
    split at live
    · rename_i same
      cases live
      exact .inl ⟨same.symm, rfl⟩
    · rename_i other
      exact .inr ⟨Ne.symm other, live⟩
  have old : ∀ cell, cell < x.next → (x.add d).data[cell]? = x.data[cell]? := by
    intro cell lt
    rw [Cells.add, ExtTreeMap.getElem?_insert, if_neg (by simpa using lt.ne')]
  have new : (x.add d).data[x.next]? = some d := ExtTreeMap.getElem?_insert_self
  have storedAt : ∀ j s e, Stored t' (x.add d) j s e →
      (j = id ∧ s = fresh ∧ e = d) ∨ (j ≠ id ∧ Stored t x j s e) := by
    rintro j s e ⟨live, data⟩
    rcases liveAt j s live with ⟨rfl, rfl⟩ | ⟨other, live⟩
    · rw [show fresh.record.payload = x.next from rfl, new] at data
      cases data
      exact .inl ⟨rfl, rfl, rfl⟩
    · rw [old _ (books.below j s live)] at data
      exact .inr ⟨other, live, data⟩
  have names : ∀ k, namesOf t' (x.add d) k = namesOf t x k := by
    intro k
    refine ExtTreeMap.weigh_congr fun j => ?_
    by_cases same : j = id
    · subst same
      have here : t'.map[j]? = some fresh := by rw [map, if_pos rfl]
      have there : Stored t' (x.add d) j fresh d := ⟨here, new⟩
      rw [ExtTreeMap.weightAt_some here, ExtTreeMap.weightAt_none dead, there.namingAt_eq,
        NodeData.naming_of_empty empty]
    · have same' : t'.map[j]? = t.map[j]? := by rw [map, if_neg (Ne.symm same)]
      cases live : t.map[j]? with
      | none => rw [ExtTreeMap.weightAt_none live, ExtTreeMap.weightAt_none (same'.trans live)]
      | some s =>
          rw [ExtTreeMap.weightAt_some live, ExtTreeMap.weightAt_some (same'.trans live), namingAt,
            namingAt, old _ (books.below j s live)]
  have unnamed : namesOf t x id = 0 := by
    have named := books.named id
    have none := linksOf_dead dead
    omega
  have links : ∀ k, linksOf t' k = if k = id then 1 else linksOf t k := by
    intro k
    unfold linksOf
    rw [map]
    by_cases same : k = id
    · subst same
      rw [if_pos rfl, if_pos rfl]
      rfl
    · rw [if_neg (Ne.symm same), if_neg same]
  constructor
  case stored =>
      intro j s live
      rcases liveAt j s live with ⟨rfl, rfl⟩ | ⟨other, live'⟩
      · exact ⟨d, ⟨live, new⟩, shaped⟩
      · obtain ⟨e, there, fits⟩ := books.stored j s live'
        exact ⟨e, ⟨live, by rw [old _ (books.below j s live')]; exact there.data⟩, fits⟩
  case apart =>
      intro j j' s s' live live' same
      rcases liveAt j s live with ⟨rfl, rfl⟩ | ⟨-, live⟩
      · rcases liveAt j' s' live' with ⟨rfl, rfl⟩ | ⟨-, live'⟩
        · rfl
        · have lt := books.below j' s' live'
          rw [← same] at lt
          exact absurd lt (lt_irrefl _)
      · rcases liveAt j' s' live' with ⟨rfl, rfl⟩ | ⟨-, live'⟩
        · have lt := books.below j s live
          rw [same] at lt
          exact absurd lt (lt_irrefl _)
        · exact books.apart j j' s s' live live' same
  case below =>
      intro j s live
      rcases liveAt j s live with ⟨rfl, rfl⟩ | ⟨-, live⟩
      · exact Nat.lt_succ_self _
      · exact (books.below j s live).trans (Nat.lt_succ_self _)
  case nlink =>
      intro j s e there
      rcases storedAt j s e there with ⟨rfl, rfl, rfl⟩ | ⟨-, there⟩
      · have none := NodeData.subdirs_of_empty empty
        rw [nlink, none, settled]
        simp [fresh, freshSlot]
      · exact books.nlink j s e there
  case single =>
      intro j s e there dir
      rcases storedAt j s e there with ⟨rfl, rfl, rfl⟩ | ⟨-, there⟩
      · exact le_rfl
      · exact books.single j s e there dir
  case kinds =>
      intro j s e name f there found s' e' target
      rcases storedAt j s e there with ⟨rfl, rfl, rfl⟩ | ⟨-, there⟩
      · rw [empty] at found
        simp at found
      · rcases storedAt f.id s' e' target with ⟨same, -, -⟩ | ⟨-, target⟩
        · -- No entry names the number of the new node.
          have pos := NodeData.naming_pos found
          have le := there.naming_le f.id
          rw [same] at pos le
          omega
        · exact books.kinds j s e name f there found s' e' target
  case named =>
      intro k
      have before := books.named k
      have amount := right k
      rw [names, links]
      split
      · rename_i same
        subst same
        rw [if_pos rfl] at amount
        have none := linksOf_dead dead
        omega
      · rename_i other
        rw [if_neg other] at amount
        omega
  case exactly =>
      intro exact k
      have before := books.exactly exact k
      have amount := right k
      rw [names, links]
      split
      · rename_i same
        subst same
        rw [if_pos rfl] at amount
        have none := linksOf_dead dead
        omega
      · rename_i other
        rw [if_neg other] at amount
        omega
  case emptied =>
      intro exact j s e there unlinked
      rcases storedAt j s e there with ⟨rfl, rfl, rfl⟩ | ⟨-, there⟩
      · exact empty
      · exact books.emptied exact j s e there unlinked

/-! ### What changes no link -/

/-- A table that lost slots without links. -/
theorem trims (books : Books exact t x a b) (trims : t.Trims t') : Books exact t' x a b := by
  have storedAt : ∀ j s e, Stored t' x j s e →
      ∃ s₀, Stored t x j s₀ e ∧ s.links = s₀.links := by
    rintro j s e ⟨live, data⟩
    obtain ⟨s₀, live₀, record, links, -, -⟩ := trims.same j s live
    rw [record] at data
    exact ⟨s₀, ⟨live₀, data⟩, links⟩
  have links : ∀ k, linksOf t' k = linksOf t k := by
    intro k
    cases live' : t'.map[k]? with
    | some s =>
        obtain ⟨s₀, live₀, -, links, -, -⟩ := trims.same k s live'
        rw [linksOf_live live', linksOf_live live₀, links]
    | none =>
        rw [linksOf_dead live']
        cases live : t.map[k]? with
        | none => rw [linksOf_dead live]
        | some s =>
            rw [linksOf_live live]
            by_contra held
            obtain ⟨s', stays⟩ := trims.stays k s live (Ne.symm held)
            rw [live'] at stays
            cases stays
  have weightAt : ∀ k j s, t'.map[j]? = some s →
      t'.map.weightAt (fun _ s => namingAt x k s) j = t.map.weightAt (fun _ s => namingAt x k s) j := by
    intro k j s live
    obtain ⟨s₀, live₀, record, -, -, -⟩ := trims.same j s live
    rw [ExtTreeMap.weightAt_some live, ExtTreeMap.weightAt_some live₀, namingAt, namingAt, record]
  have fewer : ∀ k, namesOf t' x k ≤ namesOf t x k := by
    intro k
    refine ExtTreeMap.weigh_mono fun j => ?_
    cases live : t'.map[j]? with
    | none =>
        rw [ExtTreeMap.weightAt_none live]
        exact Nat.zero_le _
    | some s => exact (weightAt k j s live).le
  constructor
  case stored =>
      intro j s live
      obtain ⟨s₀, live₀, record, -, -, -⟩ := trims.same j s live
      obtain ⟨e, there, fits⟩ := books.stored j s₀ live₀
      exact ⟨e, ⟨live, by rw [record]; exact there.data⟩, fits⟩
  case apart =>
      intro j j' s s' live live' same
      obtain ⟨s₀, live₀, record, -, -, -⟩ := trims.same j s live
      obtain ⟨s₁, live₁, record', -, -, -⟩ := trims.same j' s' live'
      rw [record, record'] at same
      exact books.apart j j' s₀ s₁ live₀ live₁ same
  case below =>
      intro j s live
      obtain ⟨s₀, live₀, record, -, -, -⟩ := trims.same j s live
      rw [record]
      exact books.below j s₀ live₀
  case nlink =>
      intro j s e there
      obtain ⟨s₀, there, same⟩ := storedAt j s e there
      rw [same]
      exact books.nlink j s₀ e there
  case single =>
      intro j s e there dir
      obtain ⟨s₀, there, same⟩ := storedAt j s e there
      rw [same]
      exact books.single j s₀ e there dir
  case kinds =>
      intro j s e name f there found s' e' target
      obtain ⟨s₀, there, -⟩ := storedAt j s e there
      obtain ⟨s₁, target, -⟩ := storedAt f.id s' e' target
      exact books.kinds j s₀ e name f there found s₁ e' target
  case named =>
      intro k
      have before := books.named k
      have less := fewer k
      rw [links]
      omega
  case exactly =>
      intro exact k
      have more : namesOf t x k ≤ namesOf t' x k := by
        refine ExtTreeMap.weigh_mono fun j => ?_
        cases live' : t'.map[j]? with
        | some s => exact (weightAt k j s live').ge
        | none =>
            cases live : t.map[j]? with
            | none =>
                rw [ExtTreeMap.weightAt_none live]
                exact Nat.zero_le _
            | some s =>
                -- A slot that went had no links, and so no entries.
                obtain ⟨e, there, -⟩ := books.stored j s live
                have unlinked := links j
                rw [linksOf_dead live', linksOf_live live] at unlinked
                rw [ExtTreeMap.weightAt_some live, there.namingAt_eq,
                  NodeData.naming_of_empty (books.emptied exact j s e there unlinked.symm)]
                exact Nat.zero_le _
      rw [links, Nat.le_antisymm (fewer k) more]
      exact books.exactly exact k
  case emptied =>
      intro exact j s e there unlinked
      obtain ⟨s₀, there, same⟩ := storedAt j s e there
      exact books.emptied exact j s₀ e there (same ▸ unlinked)

/-- Cells that no node of the table uses do not matter. -/
theorem unused (books : Books exact t x a b) (next : x.next ≤ x'.next)
    (same : ∀ (j : NodeId) (s : Slot Nat), t.map[j]? = some s →
      x'.data[s.record.payload]? = x.data[s.record.payload]?) : Books exact t x' a b := by
  have before : ∀ {j s e}, Stored t x' j s e → Stored t x j s e := fun there =>
    ⟨there.live, (same _ _ there.live) ▸ there.data⟩
  have names : ∀ k, namesOf t x' k = namesOf t x k := by
    intro k
    refine ExtTreeMap.weigh_congr fun j => ?_
    cases live : t.map[j]? with
    | none => rw [ExtTreeMap.weightAt_none live, ExtTreeMap.weightAt_none live]
    | some s =>
        rw [ExtTreeMap.weightAt_some live, ExtTreeMap.weightAt_some live, namingAt, namingAt,
          same j s live]
  constructor
  case stored =>
      intro j s live
      obtain ⟨e, there, shaped⟩ := books.stored j s live
      exact ⟨e, ⟨live, (same j s live).trans there.data⟩, shaped⟩
  case apart => exact books.apart
  case below => exact fun j s live => (books.below j s live).trans_le next
  case nlink => exact fun j s e there => books.nlink j s e (before there)
  case single => exact fun j s e there => books.single j s e (before there)
  case kinds =>
      exact fun j s e name f there found s' e' target =>
        books.kinds j s e name f (before there) found s' e' (before target)
  case named =>
      intro k
      rw [names]
      exact books.named k
  case exactly =>
      intro exact k
      rw [names]
      exact books.exactly exact k
  case emptied => exact fun exact j s e there => books.emptied exact j s e (before there)

/-- New data in a cell that says the same about names. -/
theorem mild (books : Books exact t x a b) {cell : Nat} (data : x.data[cell]? = some d)
    (mild : d.Mild d') : Books exact t (x.set cell d') a b := by
  obtain ⟨kind, shaped, entries, nlink⟩ := mild
  by_cases used : ∃ (j : NodeId) (s : Slot Nat), t.map[j]? = some s ∧ s.record.payload = cell
  · obtain ⟨j, s, live, rfl⟩ := used
    have here : Stored t x j s d := ⟨live, data⟩
    obtain ⟨e, there, fits⟩ := books.stored j s live
    obtain ⟨-, rfl⟩ := here.unique there
    have naming : ∀ k, d'.naming k = e.naming k := fun k => by rw [NodeData.naming, entries]; rfl
    have subdirs : d'.subdirs = e.subdirs := by rw [NodeData.subdirs, entries]; rfl
    refine books.update here (shaped fits) kind (fun name f found s' d₁ target => ?_)
      (fun exact unlinked => ?_) (fun k => ?_) fun k => ?_
    · exact books.kinds j s e name f here (entries ▸ found) s' d₁ target
    · rw [entries]
      exact books.emptied exact j s e here unlinked
    · rw [nlink, subdirs]
      split <;> omega
    · rw [naming k]
      omega
  · refine books.unused le_rfl fun j s live => ?_
    have other : cell ≠ s.record.payload := fun eq => used ⟨j, s, live, eq.symm⟩
    rw [Cells.set, ExtTreeMap.getElem?_insert, if_neg (by simpa using other)]

/-- Without `exact`, names may get lost. -/
theorem loosen (books : Books exact t x a b) (loose : ¬ exact) (more : ∀ k, b k ≤ b' k) :
    Books exact t x a b' where
  stored := books.stored
  apart := books.apart
  below := books.below
  nlink := books.nlink
  single := books.single
  kinds := books.kinds
  named := fun k => by
    have before := books.named k
    have amount := more k
    omega
  exactly := fun exact => absurd exact loose
  emptied := books.emptied

/-! ### The first books -/

/-- The books before the first request. -/
theorem start : Books exact MemoryFs.world.table MemoryFs.world.ext (fun _ => 0) owing := by
  let root : Slot Nat := freshSlot 0 0 0 NodeId.root
  let data : NodeData := .new .directory (.dir ∅) 0o755
  have liveAt : ∀ (j : NodeId) (s : Slot Nat), MemoryFs.world.table.map[j]? = some s →
      j = NodeId.root ∧ s = root := by
    intro j s live
    simp only [MemoryFs.world, World.new, withRoot_map] at live
    split at live
    · rename_i same
      cases live
      exact ⟨same.symm, rfl⟩
    · cases live
  have stored : ∀ j s e, Stored MemoryFs.world.table MemoryFs.world.ext j s e →
      j = NodeId.root ∧ s = root ∧ e = data := by
    rintro j s e ⟨live, found⟩
    obtain ⟨rfl, rfl⟩ := liveAt j s live
    have here : MemoryFs.world.ext.data[(0 : Nat)]? = some data := ExtTreeMap.getElem?_insert_self
    rw [show root.record.payload = 0 from rfl, here] at found
    cases found
    exact ⟨rfl, rfl, rfl⟩
  have unnamed : ∀ k, namesOf MemoryFs.world.table MemoryFs.world.ext k = 0 := by
    intro k
    refine ExtTreeMap.weigh_eq_zero fun j s live => ?_
    obtain ⟨rfl, rfl⟩ := liveAt j s live
    exact NodeData.naming_of_empty (d := data) rfl k
  have live : MemoryFs.world.table.map[NodeId.root]? = some root := by
    simp only [MemoryFs.world, World.new, withRoot_map]
    rfl
  have balance : ∀ k, (namesOf MemoryFs.world.table MemoryFs.world.ext k : Int) =
      linksOf MemoryFs.world.table k + owing k := by
    intro k
    rw [unnamed k, owing]
    by_cases same : k = NodeId.root
    · rw [same, linksOf_live live]
      rfl
    · have dead : MemoryFs.world.table.map[k]? = none := by
        cases other : MemoryFs.world.table.map[k]? with
        | none => rfl
        | some s => exact absurd (liveAt k s other).1 same
      rw [linksOf_dead dead, if_neg same]
      rfl
  constructor
  case stored =>
      intro j s there
      obtain ⟨rfl, rfl⟩ := liveAt j s there
      exact ⟨data, ⟨there, ExtTreeMap.getElem?_insert_self⟩, ⟨fun _ => ⟨∅, rfl⟩, fun _ => rfl⟩⟩
  case apart =>
      intro j j' s s' there there' _
      rw [(liveAt j s there).1, (liveAt j' s' there').1]
  case below =>
      intro j s there
      obtain ⟨rfl, rfl⟩ := liveAt j s there
      exact Nat.one_pos
  case nlink =>
      intro j s e there
      obtain ⟨rfl, rfl, rfl⟩ := stored j s e there
      rw [NodeData.subdirs_of_empty (d := data) rfl]
      rfl
  case single =>
      intro j s e there _
      obtain ⟨rfl, rfl, rfl⟩ := stored j s e there
      exact le_rfl
  case kinds =>
      intro j s e name f there found
      obtain ⟨rfl, rfl, rfl⟩ := stored j s e there
      have none : (∅ : ExtTreeMap OsStr DirEntry)[name]? = some f := found
      simp at none
  case named => exact fun k => (balance k).le
  case exactly => exact fun _ => balance
  case emptied =>
      intro _ j s e there _
      obtain ⟨rfl, rfl, rfl⟩ := stored j s e there
      rfl

end Books

end MemoryFs

end TypedFuse
