import TypedFuse.Memory.Tree

/-!
# Runs of the in-memory filesystem

A runtime on a `MemoryFs` that serves one request after the other.  Whatever the requests are and
however they end, short of a panic, no directory holds a name of a node that is gone or of another
kind, and `nlink` is what the links and the directories below say (`served_counts`).  If no name is
made in a directory that was removed, it is the number of names (`served_names`).  A lookup answers as
the entries of its directory say (`served_lookup`).
-/

namespace TypedFuse

open Std Prog NodeTable TypedFuse.Runtime

/-- The directory that a request makes a name in. -/
def Request.makesIn : Request → Option NodeId
  | .mknod parent _ _ _ _ _ => some parent
  | .mkdir parent _ _ _ _ => some parent
  | .symlink parent _ _ _ => some parent
  | .create parent _ _ _ _ _ => some parent
  | .link _ newparent _ _ => some newparent
  | .rename _ _ newparent _ _ _ => some newparent
  | _ => none

namespace MemoryFs

variable {exact : Prop} {w w' : World memoryTypes Cells} {id : NodeId} {slot : Slot Nat}
  {d : NodeData}

/-- The worlds that requests come to, one after the other.  With `exact`, no request makes a name in a
directory without links. -/
inductive Served (exact : Prop) : World memoryTypes Cells → Prop
  | start : Served exact MemoryFs.world
  | request {w w' : World memoryTypes Cells} {q : Request} {out : Except Exit Reply} :
    Served exact w → (∀ dir, q.makesIn = some dir → Linked exact w.table dir) →
    (q.run memoryFs).Exec (runtime memoryMachine) w out w' → out ≠ .error .panic → Served exact w'

theorem new_shaped {kind : FileKind} {content : Content} {perm : Nat} (plain : kind ≠ .directory)
    (other : ∀ es, content ≠ .dir es) : (NodeData.new kind content perm).Shaped :=
  ⟨fun isDir => absurd isDir plain, fun ⟨es, dir⟩ => absurd dir (other es)⟩

/-- What `mknod` makes is no directory. -/
theorem specialKind_new {mode perm : Nat} {kind : FileKind} {content : Content}
    (made : specialKind mode = some (kind, content)) :
    (NodeData.new kind content perm).Shaped ∧ (NodeData.new kind content perm).entries = ∅ := by
  unfold specialKind at made
  split at made <;> cases made <;> exact ⟨new_shaped nofun nofun, rfl⟩

theorem naming_rest (rest : Rest exact w) {q : Request}
    (linked : ∀ dir, q.makesIn = some dir → Linked exact w.table dir) :
    q.Naming memoryFs fun cb => cb.wp (aloneIn memoryMachine Empty) (Ended (Rest exact)) w := by
  have ran : ∀ {α : Type} {cb : Body Empty α}, Does cb (fun _ t x => Even exact t x) w.table w.ext →
      cb.wp (aloneIn memoryMachine Empty) (Ended (Rest exact)) w := fun does => does w rfl rfl
  cases q with
  | mknod parent name mode rdev umask caller =>
      refine ran ?_
      show Does (MemoryFs.mknod parent name mode) _ _ _
      unfold MemoryFs.mknod
      split
      · rename_i made
        obtain ⟨shaped, empty⟩ := specialKind_new made
        exact createChild_does rest (linked parent rfl) shaped empty
      · exact .exit rest
  | mkdir parent name mode umask caller =>
      exact ran (createChild_does rest (linked parent rfl)
        (NodeData.shaped_of_dir rfl rfl) rfl)
  | symlink parent name target caller =>
      exact ran (createChild_does rest (linked parent rfl) (new_shaped nofun nofun) rfl)
  | create parent name mode umask flags caller =>
      have child : Does (O := Empty)
          (createChild parent name .regularFile (.file []) (mode &&& 0o7777))
          (fun _ t x => Even exact t x) w.table w.ext :=
        createChild_does rest (linked parent rfl) (new_shaped nofun nofun) rfl
      refine ran (.bind (child.mono fun out t x even => ?_))
      cases out with
      | ok id => exact .ret even
      | error e => exact even
  | link ino newparent newname caller => exact ran (link_does rest (linked newparent rfl))
  | unlink parent name caller => exact ran (unlink_does rest)
  | rmdir parent name caller => exact ran (rmdir_does rest)
  | rename parent name newparent newname flags caller =>
      exact ran (rename_does rest (linked newparent rfl))
  | _ => trivial

theorem world_sound : Sound memoryMachine MemoryFs.world := by
  have inv : World.Inv (X := memoryMachine) True MemoryFs.world 0 :=
    new_inv (K := memoryTypes) (0 : Nat) _
  exact ⟨0, inv.held, inv.numbered, inv.files, inv.dirs, inv.apart, nofun⟩

/-- Between requests the books are even. -/
theorem Served.rest (served : Served exact w) : Sound memoryMachine w ∧ Rest exact w := by
  induction served with
  | start => exact ⟨world_sound, Books.start⟩
  | request _ linked run calm ih =>
      obtain ⟨sound, rest⟩ := ih
      obtain ⟨inside, sound'⟩ := sound.request run
      have ended := (Request.keeping (keeping exact) (rest_lasting exact) rest _
        (naming_rest rest linked)).exec inside
      rcases ended with panic | rest'
      · exact absurd panic calm
      · exact ⟨sound', rest'⟩

/-! ## A run -/

def memoryExec (o : RtOp memoryTypes) (w : World memoryTypes Cells) :
    Option (o.Res × World memoryTypes Cells) :=
  World.exec (fun e x => some (Cells.exec e x)) true o w

theorem memoryExec_step (o : RtOp memoryTypes) (w : World memoryTypes Cells) (r : o.Res)
    (w' : World memoryTypes Cells) (run : memoryExec o w = some (r, w')) :
    (runtime memoryMachine).step o w r w' :=
  World.exec_step (X := memoryMachine) (fun _ _ _ _ done => Option.some.inj done) run

/-- Requests played one after another that make names in linked directories and do not panic. -/
def memoryRun : List Request → World memoryTypes Cells → Option (World memoryTypes Cells)
  | [], w => some w
  | q :: rest, w =>
    if q.makesIn.all (linksOf w.table · ≠ 0) then
      match (q.run memoryFs).play memoryExec w with
      | some (.ok _, w') => memoryRun rest w'
      | some (.error (.errno _), w') => memoryRun rest w'
      | _ => none
    else none

theorem memoryRun_served {qs : List Request} (served : Served True w)
    (run : memoryRun qs w = some w') : Served True w' := by
  induction qs generalizing w with
  | nil =>
      cases run
      exact served
  | cons q rest ih =>
      unfold memoryRun at run
      split at run
      · rename_i linked
        have made : ∀ dir, q.makesIn = some dir → Linked True w.table dir := by
          intro dir same _
          simpa [same] using linked
        split at run
        · rename_i played
          exact ih (.request served made (play_exec memoryExec_step played) nofun) run
        · rename_i played
          exact ih (.request served made (play_exec memoryExec_step played) nofun) run
        · cases run
      · cases run

/-- Two directories and a file; the file gets a second name in one directory, and the other one moves
there. -/
def treeRequests : List Request :=
  [.mkdir 1 [100] 0 0 nobody, .mkdir 1 [101] 0 0 nobody, .create 1 [102] 0 0 0 nobody,
    .link 4 2 [103] nobody, .rename 1 [101] 2 [101] 0 nobody]

def treePlayed : World memoryTypes Cells :=
  (memoryRun treeRequests MemoryFs.world).getD MemoryFs.world

theorem treePlayed_served : Served True treePlayed := by
  have done : (memoryRun treeRequests MemoryFs.world).isSome = true := by decide +kernel
  obtain ⟨w, eq⟩ := Option.isSome_iff_exists.mp done
  rw [treePlayed, eq]
  exact memoryRun_served .start eq

/-! ## Counts -/

/-- After any requests, each node in the table has its data; its `nlink` is its number of links, or for
a directory two for its link and one for each directory among its entries; and each of its entries
names a node in the table that has links and the kind the entry says. -/
theorem served_counts (served : Served exact w) (live : w.table.map[id]? = some slot) :
    ∃ d : NodeData, w.ext.data[slot.record.payload]? = some d ∧
      (d.kind = .directory → slot.links ≤ 1 ∧ d.attr.nlink = 2 * slot.links + d.subdirs) ∧
      (d.kind ≠ .directory → d.attr.nlink = slot.links) ∧
      ∀ (name : OsStr) (e : DirEntry), d.entries[name]? = some e → ∃ slot' d',
        w.table.map[e.id]? = some slot' ∧ slot'.links ≠ 0 ∧
          w.ext.data[slot'.record.payload]? = some d' ∧ d'.kind = e.kind := by
  obtain ⟨-, books⟩ := served.rest
  obtain ⟨d, stored, shaped⟩ := books.stored id slot live
  have nlink := books.nlink id slot d stored
  unfold NodeData.base at nlink
  refine ⟨d, stored.data, fun dir => ⟨books.single id slot d stored dir, ?_⟩, fun plain => ?_,
    fun name e there => ?_⟩
  · rw [if_pos dir] at nlink
    show d.nlink = _
    omega
  · have none := NodeData.subdirs_of_empty (shaped.entries_eq_empty plain)
    rw [if_neg plain, none] at nlink
    show d.nlink = _
    omega
  · obtain ⟨slot', live', linked⟩ := books.entry_linked stored there (owing_le _)
    obtain ⟨d', stored', -⟩ := books.stored e.id slot' live'
    exact ⟨slot', d', live', linked, stored'.data,
      books.kinds id slot d name e stored there slot' d' stored'⟩

/-- The directory that another one moved to. -/
theorem treePlayed_counts : ∃ (slot : Slot Nat) (d : NodeData),
    treePlayed.table.map[(2 : Nat)]? = some slot ∧
      treePlayed.ext.data[slot.record.payload]? = some d ∧ d.kind = .directory ∧
        d.attr.nlink = 2 * slot.links + d.subdirs := by
  have found : treePlayed.table.map[(2 : Nat)]?.any (fun slot =>
      (treePlayed.ext.data[slot.record.payload]?).any fun d => d.kind = .directory) = true := by
    decide +kernel
  obtain ⟨slot, live, found⟩ := (Option.any_eq_true _ _).mp found
  obtain ⟨d, data, found⟩ := (Option.any_eq_true _ _).mp found
  have dir : d.kind = .directory := by simpa using found
  obtain ⟨d', data', ofDir, -, -⟩ := served_counts treePlayed_served live
  rw [data] at data'
  cases data'
  exact ⟨slot, d, live, data, dir, (ofDir dir).2⟩

/-- If no name is made in a directory without links, then as many entries name a node as it has links,
which are the names its `nlink` counts; without links it has no entries left either. -/
theorem served_names (served : Served True w) (live : w.table.map[id]? = some slot)
    (other : id ≠ NodeId.root) :
    ∃ d : NodeData, w.ext.data[slot.record.payload]? = some d ∧
      namesOf w.table w.ext id = slot.links ∧
      d.attr.nlink = (if d.kind = .directory then 2 * namesOf w.table w.ext id + d.subdirs
        else namesOf w.table w.ext id) ∧
      (namesOf w.table w.ext id = 0 → d.entries = ∅) := by
  obtain ⟨-, books⟩ := served.rest
  obtain ⟨d, data, ofDir, ofPlain, -⟩ := served_counts served live
  have names := books.exactly trivial id
  rw [linksOf_live live, owing, if_neg other] at names
  have counted : namesOf w.table w.ext id = slot.links := by omega
  refine ⟨d, data, counted, ?_, fun none => ?_⟩
  · rw [counted]
    split
    · exact (ofDir ‹_›).2
    · exact ofPlain ‹_›
  · exact books.emptied trivial id slot d ⟨live, data⟩ (counted ▸ none)

/-- The file that has two names. -/
theorem treePlayed_names : ∃ (slot : Slot Nat) (d : NodeData),
    treePlayed.table.map[(4 : Nat)]? = some slot ∧
      treePlayed.ext.data[slot.record.payload]? = some d ∧
        namesOf treePlayed.table treePlayed.ext 4 = 2 := by
  have found : treePlayed.table.map[(4 : Nat)]?.any (fun slot => slot.links = 2) = true := by
    decide +kernel
  obtain ⟨slot, live, links⟩ := (Option.any_eq_true _ _).mp found
  have two : slot.links = 2 := by simpa using links
  obtain ⟨d, data, names, -, -⟩ := served_names treePlayed_served live (by decide)
  exact ⟨slot, d, live, data, names.trans two⟩

/-! ## Lookups -/

theorem entryFor_alone (caller : Caller) (stored : Stored w.table w.ext id slot d) :
    (entryFor memoryFs id caller).wp (solo memoryMachine)
      (fun out _ => out = .error .panic ∨ out = .ok ⟨id, slot.generation, d.attr⟩) w := by
  have looked : Does (O := Empty) (memoryFs.entryAttr slot.record.payload caller)
      (fun out t _ => out = .ok d.attr ∧
        t = w.table.settle id { slot with leases := slot.leases + 1 })
      (w.table.settle id { slot with leases := slot.leases + 1 }) w.ext := by
    refine .readNode fun d' data => ?_
    rw [stored.data] at data
    cases data
    exact ⟨rfl, rfl⟩
  refine wp.bind fun r w₁ step => ?_
  obtain ⟨rfl, rfl⟩ : r = (w.table.get id).1 ∧ w₁ = { w with table := (w.table.get id).2 } :=
    step.1.1
  rcases get_cases w.table id with ⟨gone, -⟩ | eq | ⟨slot', live, eq⟩
  · rw [stored.live] at gone
    cases gone
  · rw [eq]
    exact .inl rfl
  · rw [stored.live] at live
    cases live
    rw [eq]
    have ran := call_alone (looked { w with
      table := w.table.settle id { slot with leases := slot.leases + 1 } } rfl rfl)
    refine wp.andFinally (wp.bind (ran.mono fun out w₂ done => ?_))
    rcases done with rfl | ⟨rfl, table⟩
    · exact fun _ _ _ => ⟨rfl, .inl rfl⟩
    · intro r w₃ step
      obtain ⟨rfl, rfl⟩ : r = (w₂.table.retainLookup id).1 ∧
        w₃ = { w₂ with table := (w₂.table.retainLookup id).2 } := step.1.1
      have here : w₂.table.map[id]? = some { slot with leases := slot.leases + 1 } := by
        have held : ({ slot with leases := slot.leases + 1 } : Slot Nat).droppable = false := by
          simp [Slot.droppable]
        rw [table, settle_map, held]
        simp
      rcases retainLookup_cases w₂.table id with ⟨gone, -⟩ | eq | ⟨slot', live, eq⟩
      · rw [here] at gone
        cases gone
      · rw [eq]
        exact fun _ _ _ => ⟨rfl, .inl rfl⟩
      · rw [here] at live
        cases live
        rw [eq]
        exact fun _ _ _ => ⟨rfl, .inr rfl⟩

/-- A lookup in a directory answers as its entries say: for a name it has with the node's number,
generation and attributes, which are of the kind the entry says, and never with an error. -/
theorem served_lookup (served : Served exact w) {parent : NodeId}
    (stored : Stored w.table w.ext parent slot d) (dir : d.kind = .directory) {name : OsStr}
    {caller : Caller} {out : Except Exit Reply}
    (run : ((Request.lookup parent name caller).run memoryFs).Exec (runtime memoryMachine) w out w')
    (calm : out ≠ .error .panic) :
    (d.entries[name]? = none → out = .ok (.lookup .negative)) ∧
      ∀ e, d.entries[name]? = some e → ∃ slot' d', Stored w.table w.ext e.id slot' d' ∧
        d'.kind = e.kind ∧ out = .ok (.lookup (.found ⟨e.id, slot'.generation, d'.attr⟩)) := by
  obtain ⟨sound, books⟩ := served.rest
  have content := (books.shaped stored).content dir
  have entryDoes : Does (O := Empty) (MemoryFs.entry parent name)
      (fun out t x => out = okOr d.entries[name]? .ENOENT ∧ t = w.table ∧ x = w.ext)
      w.table w.ext := by
    refine .peek (fun dead => ?_) fun slot' d' stored' => ?_
    · rw [stored.live] at dead
      cases dead
    · obtain ⟨-, rfl⟩ := stored.unique stored'
      rw [content]
      exact ⟨rfl, rfl, rfl⟩
  have lookupDoes : Does (O := Empty) (memoryFs.lookup parent name caller)
      (fun out t x => out = .ok (d.entries[name]?.map (·.id)) ∧ t = w.table ∧ x = w.ext)
      w.table w.ext := by
    refine .bind (.bind (.attempt (entryDoes.mono fun out t x done => ?_) fun _ _ => .panic))
    obtain ⟨rfl, rfl, rfl⟩ := done
    cases d.entries[name]? with
    | none => exact .ret (.ret ⟨rfl, rfl, rfl⟩)
    | some e => exact .ret (.ret ⟨rfl, rfl, rfl⟩)
  have answers : ((Request.lookup parent name caller).run memoryFs).wp (solo memoryMachine)
      (fun out _ => out = .error .panic ∨
        (d.entries[name]? = none → out = .ok (.lookup .negative)) ∧
          ∀ e, d.entries[name]? = some e → ∃ slot' d', Stored w.table w.ext e.id slot' d' ∧
            d'.kind = e.kind ∧ out = .ok (.lookup (.found ⟨e.id, slot'.generation, d'.attr⟩))) w := by
    refine wp.bind (wp.bind ((call_alone (lookupDoes w rfl rfl)).mono fun out w₁ done => ?_))
    rcases done with rfl | ⟨rfl, table, ext⟩
    · exact .inl rfl
    · cases there : d.entries[name]? with
      | none => exact .inr ⟨fun _ => rfl, nofun⟩
      | some e =>
          obtain ⟨slot', d', found⟩ := books.found stored content there (owing_le _)
          have found₁ : Stored w₁.table w₁.ext e.id slot' d' := by
            rw [table, ext]
            exact found.stored
          refine wp.bind ((entryFor_alone caller found₁).mono fun out w₂ done => ?_)
          rcases done with rfl | rfl
          · exact .inl rfl
          · refine .inr ⟨nofun, fun e' same => ?_⟩
            cases same
            exact ⟨slot', d', found.stored, found.kind, rfl⟩
  exact (answers.exec (sound.request run).1).resolve_left calm

/-- The file is found under its second name. -/
theorem treePlayed_lookup : ∃ (w' : World memoryTypes Cells) (out : Except Exit Reply),
    ((Request.lookup 2 [103] nobody).run memoryFs).Exec (runtime memoryMachine) treePlayed out w' ∧
      ∃ (slot : Slot Nat) (d : NodeData), Stored treePlayed.table treePlayed.ext 4 slot d ∧
        d.kind = .regularFile ∧ out = .ok (.lookup (.found ⟨4, slot.generation, d.attr⟩)) := by
  have played : (((Request.lookup 2 [103] nobody).run memoryFs).play memoryExec treePlayed).any
      (fun r => r.1.isOk) = true := by decide +kernel
  have found : treePlayed.table.map[(2 : Nat)]?.any (fun slot =>
      (treePlayed.ext.data[slot.record.payload]?).any fun d => d.kind = .directory ∧
        d.entries[([103] : OsStr)]? = some ⟨4, .regularFile⟩) = true := by decide +kernel
  obtain ⟨⟨out, w'⟩, ran, calm⟩ := (Option.any_eq_true _ _).mp played
  obtain ⟨slot, live, found⟩ := (Option.any_eq_true _ _).mp found
  obtain ⟨d, data, found⟩ := (Option.any_eq_true _ _).mp found
  obtain ⟨dir, there⟩ : d.kind = .directory ∧
      d.entries[([103] : OsStr)]? = some ⟨4, .regularFile⟩ := by
    simpa using found
  have ended : out ≠ .error .panic := by
    rintro rfl
    cases calm
  have exec := play_exec (M := runtime memoryMachine) memoryExec_step ran
  obtain ⟨-, answer⟩ := served_lookup treePlayed_served ⟨live, data⟩ dir exec ended
  obtain ⟨slot', d', stored, kind, eq⟩ := answer _ there
  exact ⟨w', out, exec, slot', d', stored, kind, eq⟩

end MemoryFs

end TypedFuse
