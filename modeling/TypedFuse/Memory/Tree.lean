import TypedFuse.Memory.Sections

/-!
# Names, links and link counts of the in-memory filesystem

Every callback of `MemoryFs` that makes or takes away names leaves the books even: what its sections
change at the entries of a directory, at the links of the node table and at `nlink` cancels out.
-/

namespace TypedFuse

open Std Prog NodeTable TypedFuse.Runtime

namespace MemoryFs

variable {O : Type} {exact : Prop} {t t' : NodeTable Nat} {x x' : Cells} {a a' b b' : NodeId → Int}
  {id parent newparent : NodeId} {name newname : OsStr} {slot slot' : Slot Nat} {d d' : NodeData}
  {es : ExtTreeMap OsStr DirEntry}

/-- The books between requests. -/
abbrev Even (exact : Prop) (t : NodeTable Nat) (x : Cells) : Prop :=
  Books exact t x (fun _ => 0) owing

/-- The node has links, if the books are to be exact. -/
def Linked (exact : Prop) (t : NodeTable Nat) (id : NodeId) : Prop := exact → linksOf t id ≠ 0

theorem Linked.links_ne (linked : Linked exact t id) (live : t.map[id]? = some slot) (ex : exact) :
    slot.links ≠ 0 := by
  have links := linked ex
  rwa [linksOf_live live] at links

theorem namesIn_some (e : DirEntry) (k : NodeId) :
    namesIn (some e) k = if k = e.id then 1 else 0 := by
  unfold namesIn
  simp only [Option.elim_some, eq_comm]

/-- A node loses a link and what its `nlink` has for it. -/
theorem unname {Q : Except Exit Unit → NodeTable Nat → Cells → Prop} (books : Books exact t x a b)
    (stored : Stored t x id slot d) (empty : d.entries = ∅) (linked : slot.links ≠ 0)
    (settled : a id = 0) {f : NodeData → NodeData}
    (count : f d = { d with nlink := d.nlink - d.base 1 })
    (right : ∀ k, b' k = b k + if k = id then 1 else 0)
    (done : ∀ t' x', Books exact t' x' a b' → Q (.ok ()) t' x') :
    Does (O := O) (poke id (fun d => some (f d)) >>= fun _ => .op (.cx (.removeLink id)) .ret) Q t x := by
  have nlink := books.nlink id slot d stored
  have none := NodeData.subdirs_of_empty empty
  have based : d.base slot.links = d.base (slot.links - 1) + d.base 1 := by
    unfold NodeData.base
    split <;> omega
  refine .bind (.poke_stored stored fun d' made => ?_)
  cases made.symm.trans (congrArg some count)
  have counted : Books exact t (x.set slot.record.payload { d with nlink := d.nlink - d.base 1 })
      (fun k => a k - if k = id then (d.base 1 : Int) else 0) b := by
    refine books.recount stored _ fun k => ?_
    split <;> omega
  have stored' : Stored t (x.set slot.record.payload { d with nlink := d.nlink - d.base 1 }) id slot
      { d with nlink := d.nlink - d.base 1 } := (books.stored_set stored).mpr (.inl ⟨rfl, rfl, rfl⟩)
  refine .op fun w w' r table ext step sound => ?_
  cases step
  subst table
  refine .ret (done _ _ ?_)
  rw [ext]
  refine counted.relink stored' (.removeLink sound.tidy stored.live) (fun dir => ?_) (fun _ => empty)
    (fun k => ?_) fun k => ?_
  · have one := books.single id slot d stored dir
    omega
  · have same : ∀ n, ({ d with nlink := d.nlink - d.base 1 } : NodeData).base n = d.base n :=
      fun _ => rfl
    rw [same, same]
    split <;> omega
  · rw [right k]
    split <;> omega

/-! ## Making names -/

/-- A name for a node that is one link ahead of its names. -/
theorem linkInto_does {Q : Except Exit Unit → NodeTable Nat → Cells → Prop} {e : DirEntry}
    (books : Books exact t x a b) (stored : Stored t x parent slot d) (dir : d.content = .dir es)
    (free : es[name]? = none) (linked : Linked exact t parent)
    (agree : ∀ s d₁, Stored t x e.id s d₁ → d₁.kind = e.kind)
    (right : ∀ k, b' k = b k + if k = e.id then 1 else 0)
    (done : ∀ d', Books exact t (x.set slot.record.payload d') a b' →
      Q (.ok ()) t (x.set slot.record.payload d')) :
    Does (O := O) (linkInto parent name e) Q t x := by
  have changed : ∀ d' n, d' = { d with content := .dir (bound name (some e) es), nlink := n } →
      n = d.nlink + dirsIn (some e) → Books exact t (x.set slot.record.payload d') a b' := by
    intro d' n made eq
    refine books.rebind stored dir name (some e) n made (fun e' same => ?_)
      (fun ex _ => linked.links_ne stored.live ex) (fun k => ?_) fun k => ?_
    · cases same
      exact agree
    · rw [free, eq]
      simp [dirsIn]
    · rw [right k, free, namesIn_some]
      split <;> simp [namesIn]
  refine .bind (.poke_stored stored fun d' made => .ret (done d' ?_))
  rw [NodeData.onEntries_eq dir] at made
  simp only at made
  split at made
  · rename_i isDir
    unfold NodeData.addNlink at made
    simp only [Option.map_eq_some_iff] at made
    obtain ⟨n, add, rfl⟩ := made
    refine changed _ n rfl ?_
    rw [checkedAdd_eq_some add]
    simp [dirsIn, isDir]
  · rename_i plain
    cases made
    refine changed _ d.nlink rfl ?_
    simp [dirsIn, plain]

theorem createChild_does {kind : FileKind} {content : Content} {perm : Nat}
    (even : Even exact t x) (linked : Linked exact t parent)
    (shaped : (NodeData.new kind content perm).Shaped)
    (empty : (NodeData.new kind content perm).entries = ∅) :
    Does (O := O) (createChild parent name kind content perm) (fun _ t x => Even exact t x) t x := by
  refine .bind (.checkNewEntry (fun _ => even) fun slot d es stored dir free => ?_)
  refine .op fun w w₁ cell table ext step _ => ?_
  obtain ⟨x₁, new, rfl⟩ := step
  subst table ext
  cases new
  refine .op fun w₁ w₂ r table ext step sound => ?_
  obtain ⟨rfl, rfl⟩ := step
  obtain ⟨T, inv⟩ := sound
  obtain ⟨given, num⟩ := inv.numbered
  simp only at table ext ⊢
  rw [ext]
  rw [table] at num ⊢
  cases made : w.table.insert w.ext.next parent with
  | mk r t' =>
      cases r with
      | none => exact .panic
      | some id =>
          obtain ⟨dead, generation, map⟩ := num.insert_map made
          have other : id ≠ parent := fun same => by
            rw [same, stored.live] at dead
            cases dead
          have old : w.ext.next ≠ slot.record.payload :=
            (even.below parent slot stored.live).ne'
          have here : Stored t' (w.ext.add (.new kind content perm)) parent slot d :=
            ⟨by rw [map, if_neg other]; exact stored.live, by
              rw [Cells.add, ExtTreeMap.getElem?_insert, if_neg (by simpa using old)]
              exact stored.data⟩
          have linked' : Linked exact t' parent := by
            intro ex
            rw [linksOf_live here.live]
            exact linked.links_ne stored.live ex
          have books : Books exact t' (w.ext.add (.new kind content perm)) (fun _ => 0)
              (fun k => owing k - if k = id then 1 else 0) := by
            refine even.insert num made shaped empty ?_ rfl ?_ fun _ => rfl
            · unfold NodeData.new NodeData.base
              rfl
            · unfold owing
              split <;> omega
          refine .bind (linkInto_does books here dir free linked' (fun s d₁ there => ?_) (fun k => ?_)
            fun d' even => .ret even)
          · have live := there.live
            rw [map, if_pos rfl] at live
            cases live
            have data : (w.ext.add (.new kind content perm)).data[w.ext.next]? = some d₁ := there.data
            rw [Cells.add, ExtTreeMap.getElem?_insert_self] at data
            cases data
            rfl
          · simp only
            split <;> omega

theorem link_does (even : Even exact t x) (linked : Linked exact t newparent) :
    Does (O := O) (link id newparent newname) (fun _ t x => Even exact t x) t x := by
  refine .bind (.kind (fun _ => even) fun slot d stored => ?_)
  show Does (if _ then _ else _) _ _ _
  split
  · exact .exit even
  · rename_i plain
    refine .bind (.checkNewEntry (fun _ => even) fun ps pd es parent dir free => ?_)
    refine .bind (.kind (fun _ => even) fun slot' d' stored' => ?_)
    obtain ⟨rfl, rfl⟩ := stored.unique stored'
    have apart : id ≠ newparent := by
      rintro rfl
      obtain ⟨-, rfl⟩ := stored.unique parent
      exact plain ((even.shaped stored).mpr ⟨es, dir⟩)
    refine .bind (linkInto_does (e := ⟨id, d'.kind⟩) even parent dir free linked
      (fun s d₁ there => ?_) (fun _ => rfl) fun pd' books => ?_)
    · obtain ⟨-, rfl⟩ := stored.unique there
      rfl
    have stored₁ : Stored t (x.set ps.record.payload pd') id slot' d' :=
      (even.stored_set parent).mpr (.inr ⟨apart, stored⟩)
    refine .op fun w w' r table ext step sound => ?_
    obtain ⟨rfl, rfl⟩ := step
    subst table
    cases added : w.table.addLink id with
    | mk r t' =>
        cases r with
        | none => exact .panic
        | some _ =>
            simp only
            rw [ext]
            have re := Books.Relinks.addLink stored.live added
            have books' : Books exact t' (x.set ps.record.payload pd')
                (fun k => if k = id then -1 else 0) owing := by
              refine books.relink stored₁ re (fun dir => absurd dir plain)
                (fun none => absurd none (Nat.succ_ne_zero _)) (fun k => ?_) fun k => ?_
              · simp only [NodeData.base, if_neg plain]
                split <;> omega
              · split <;> omega
            obtain ⟨s', stored₂, -⟩ := re.stored_after stored.live (Nat.succ_ne_zero _) stored₁
            refine .bind (.poke_stored stored₂ fun d₂ made => .ret ?_)
            unfold NodeData.addNlink at made
            simp only [Option.map_eq_some_iff] at made
            obtain ⟨n, add, rfl⟩ := made
            refine books'.recount stored₂ n fun k => ?_
            rw [checkedAdd_eq_some add]
            split <;> omega

/-! ## Taking names away -/

/-- What is known of an entry and of the node it names. -/
structure Found (t : NodeTable Nat) (x : Cells) (e : DirEntry) (slot : Slot Nat) (d : NodeData) :
    Prop where
  stored : Stored t x e.id slot d
  linked : slot.links ≠ 0
  kind : d.kind = e.kind
  shaped : d.Shaped

theorem Books.found (books : Books exact t x a b) (parent : Stored t x id slot d)
    (dir : d.content = .dir es) {e : DirEntry} (there : es[name]? = some e) (settled : b e.id ≤ 0) :
    ∃ slot' d', Found t x e slot' d' := by
  have there : d.entries[name]? = some e := by rw [NodeData.entries_eq dir]; exact there
  obtain ⟨slot', live, linked⟩ := books.entry_linked parent there settled
  obtain ⟨d', stored, shaped⟩ := books.stored e.id slot' live
  exact ⟨slot', d', stored, linked, books.kinds id slot d name e parent there slot' d' stored, shaped⟩

theorem owing_le (id : NodeId) : owing id ≤ 0 := by
  unfold owing
  split <;> omega

/-- A name is taken out of a directory. -/
theorem Books.erase (books : Books exact t x a b) (stored : Stored t x id slot d)
    (dir : d.content = .dir es) {e : DirEntry} (there : es[name]? = some e) (n : Nat)
    (made : d' = { d with content := .dir (es.erase name), nlink := n })
    (left : ∀ k, a' k = a k + if k = id then (n - d.nlink : Int) + dirsIn (some e) else 0) :
    Books exact t (x.set slot.record.payload d') a' (fun k => b k - if k = e.id then 1 else 0) := by
  refine books.rebind stored dir name none n made nofun (fun _ some => absurd rfl some) (fun k => ?_)
    fun k => ?_
  · rw [left k, there]
    simp [dirsIn]
  · rw [there, namesIn_some]
    simp only [namesIn, Option.elim_none]
    split <;> omega

/-- The node of an entry whose directory lost a name is still there. -/
theorem Found.elsewhere {e : DirEntry} (found : Found t x e slot' d') (books : Books exact t x a b)
    (stored : Stored t x id slot d) (apart : e.id ≠ id) {d₁ : NodeData} :
    Found t (x.set slot.record.payload d₁) e slot' d' where
  stored := (books.stored_set stored).mpr (.inr ⟨apart, found.stored⟩)
  linked := found.linked
  kind := found.kind
  shaped := found.shaped

theorem unlink_does (even : Even exact t x) :
    Does (O := O) (unlink parent name) (fun _ t x => Even exact t x) t x := by
  refine .bind (.entry (fun _ => even) even fun ps pd es e pstored dir there => ?_)
  obtain ⟨slot, d, found⟩ := even.found pstored dir there (owing_le _)
  refine .bind (.kind (fun _ => even) fun slot' d' stored' => ?_)
  obtain ⟨rfl, rfl⟩ := found.stored.unique stored'
  show Does (if _ then _ else _) _ _ _
  split
  · exact .exit even
  · rename_i plain
    have apart : e.id ≠ parent := by
      rintro rfl
      obtain ⟨-, rfl⟩ := found.stored.unique pstored
      exact plain (found.shaped.mpr ⟨es, dir⟩)
    refine .bind (.poke_stored pstored fun pd' made => ?_)
    rw [NodeData.onEntries_eq dir] at made
    cases made
    let pd' : NodeData := { pd with content := .dir (es.erase name) }
    have none : dirsIn (some e) = 0 := if_neg fun isDir => plain (found.kind.trans isDir)
    have books : Books exact t (x.set ps.record.payload pd') (fun _ => 0)
        (fun k => owing k - if k = e.id then 1 else 0) := by
      refine even.erase pstored dir there pd.nlink rfl fun k => ?_
      rw [none]
      split <;> omega
    have found : Found t (x.set ps.record.payload pd') e slot' d' :=
      found.elsewhere even pstored apart
    refine unname books found.stored (found.shaped.entries_eq_empty plain) found.linked rfl ?_
      (fun k => ?_) fun _ _ books => books
    · unfold NodeData.subNlink NodeData.base
      rw [if_neg plain]
    · split <;> omega

/-- A directory without entries that has a name is counted as two. -/
theorem Found.nlink_eq {e : DirEntry} (found : Found t x e slot d) (books : Books exact t x a b)
    (settled : a e.id = 0) (dir : d.kind = .directory) (empty : d.entries = ∅) : d.nlink = 2 := by
  have nlink := books.nlink e.id slot d found.stored
  have one := books.single e.id slot d found.stored dir
  have none := NodeData.subdirs_of_empty empty
  have linked := found.linked
  unfold NodeData.base at nlink
  rw [if_pos dir, settled] at nlink
  omega

/-- A lease changes nothing at the nodes. -/
theorem Stored.leased {k : NodeId} {s : Slot Nat} {e : NodeData} (stored : Stored t x k s e)
    (live : t.map[id]? = some slot) :
    ∃ s', Stored (t.settle id { slot with leases := slot.leases + 1 }) x k s' e := by
  have held : ({ slot with leases := slot.leases + 1 } : Slot Nat).droppable = false := by
    simp [Slot.droppable]
  by_cases same : id = k
  · subst same
    have slots := live.symm.trans stored.live
    cases slots
    refine ⟨{ slot with leases := slot.leases + 1 }, ?_, stored.data⟩
    rw [settle_map, if_pos rfl, held]
    rfl
  · refine ⟨s, ?_, stored.data⟩
    rw [settle_map, if_neg same]
    exact stored.live

theorem rmdir_does (even : Even exact t x) :
    Does (O := O) (rmdir parent name) (fun _ t x => Even exact t x) t x := by
  refine .bind (.entry (fun _ => even) even fun ps pd es e pstored dir there => ?_)
  refine .withRef (fun _ => .exit even) fun slot live _ => ?_
  have even₁ : Even exact (t.settle e.id { slot with leases := slot.leases + 1 }) x :=
    even.trims (trims_settle live rfl rfl rfl rfl)
  obtain ⟨ps₁, pstored₁⟩ := pstored.leased live
  obtain ⟨slot₁, d, found⟩ := even₁.found pstored₁ dir there (owing_le _)
  have record : slot₁.record.payload = slot.record.payload := by
    have here := found.stored.live
    rw [settle_map, if_pos rfl] at here
    split at here
    · cases here
    · cases here
      rfl
  suffices body : Does (O := O) _ (fun _ t x => Even exact t x) _ x from
    body.mono fun _ _ _ done t₃ tidy eq => eq ▸ done.trims (trims_dropRef tidy _)
  refine .bind (.readNode fun d' data => ?_)
  have same := found.stored.data
  rw [record, data] at same
  cases same
  cases content : d.content with
  | file bytes => simp only [removable, content]; exact even₁
  | symlink target => simp only [removable, content]; exact even₁
  | special => simp only [removable, content]; exact even₁
  | dir inside =>
      simp only [removable, content]
      cases vacant : inside.isEmpty with
      | false => exact even₁
      | true =>
          have isDir : d.kind = .directory := found.shaped.mpr ⟨inside, content⟩
          have empty : d.entries = ∅ := by
            rw [NodeData.entries_eq content]
            exact ExtTreeMap.isEmpty_iff.mp vacant
          have named : pd.entries[name]? = some e := by
            rw [NodeData.entries_eq dir]
            exact there
          have apart : e.id ≠ parent := by
            rintro rfl
            obtain ⟨-, rfl⟩ := found.stored.unique pstored₁
            rw [empty] at named
            simp at named
          have counted : dirsIn (some e) = 1 := if_pos (found.kind.symm.trans isDir)
          have more := NodeData.subdirs_pos named (found.kind.symm.trans isDir)
          have nlink := even₁.nlink parent ps₁ pd pstored₁
          have two := found.nlink_eq even₁ rfl isDir empty
          refine .bind (.poke_stored pstored₁ fun pd' made => ?_)
          rw [NodeData.onEntries_eq dir] at made
          cases made
          let pd' : NodeData := { pd with content := .dir (es.erase name), nlink := pd.nlink - 1 }
          have books : Books exact (t.settle e.id { slot with leases := slot.leases + 1 })
              (x.set ps₁.record.payload pd') (fun _ => 0)
              (fun k => owing k - if k = e.id then 1 else 0) := by
            refine even₁.erase pstored₁ dir there (pd.nlink - 1) rfl fun k => ?_
            rw [counted]
            split <;> omega
          have found : Found (t.settle e.id { slot with leases := slot.leases + 1 })
              (x.set ps₁.record.payload pd') e slot₁ d := found.elsewhere even₁ pstored₁ apart
          refine unname books found.stored empty found.linked rfl ?_ (fun k => ?_)
            fun _ _ books => books
          · unfold NodeData.base
            rw [if_pos isDir, two]
          · split <;> omega

/-! ## Moving names -/

/-- The entry that a rename replaces is of a node without entries, elsewhere. -/
def Spare (t : NodeTable Nat) (x : Cells) (old : Option DirEntry) : Prop :=
  ∀ e, old = some e → ∃ slot d, Found t x e slot d ∧ d.entries = ∅

theorem Spare.set {old : Option DirEntry} (spare : Spare t x old) (books : Books exact t x a b)
    (stored : Stored t x id slot d) (apart : ∀ e, old = some e → e.id ≠ id) :
    Spare t (x.set slot.record.payload d') old := by
  intro e same
  obtain ⟨s, d₁, found, empty⟩ := spare e same
  exact ⟨s, d₁, found.elsewhere books stored (apart e same), empty⟩

theorem dropReplaced_does {old : Option DirEntry}
    (books : Books exact t x (fun k => if k = newparent then (dirsIn old : Int) else 0)
      (fun k => owing k - namesIn old k))
    (live : t.map[newparent]? = some slot) (apart : ∀ e, old = some e → e.id ≠ newparent)
    (spare : Spare t x old) :
    Does (O := O) (dropReplaced newparent old) (fun _ t x => Even exact t x) t x := by
  cases old with
  | none =>
      have even : Even exact t x :=
        books.cast (funext fun k => by simp [dirsIn]) (funext fun k => by simp [namesIn])
      exact .ret even
  | some e =>
      have apart := apart e rfl
      obtain ⟨es, d, found, empty⟩ := spare e rfl
      have first : Does (O := O) (if e.kind = .directory then
            poke newparent (fun d => some d.subNlink) >>= fun _ => .ret () else .ret ())
          (fun out t₁ x₁ => out = .ok () ∧ t₁ = t ∧
            Books exact t x₁ (fun _ => 0) (fun k => owing k - namesIn (some e) k) ∧
              Found t x₁ e es d) t x := by
        split
        · rename_i isDir
          have counted : dirsIn (some e) = 1 := if_pos isDir
          refine .bind (.poke_live live fun nd nd' nstored made => .ret ⟨rfl, rfl, ?_⟩)
          cases made
          have nlink := books.nlink newparent slot nd nstored
          rw [if_pos rfl, counted] at nlink
          refine ⟨books.recount nstored (nd.nlink - 1) fun k => ?_,
            found.elsewhere books nstored apart⟩
          rw [counted]
          split <;> omega
        · rename_i plain
          have none : dirsIn (some e) = 0 := if_neg plain
          refine .ret ⟨rfl, rfl, books.cast (funext fun k => ?_) rfl, found⟩
          rw [none]
          simp
      refine .bind (first.mono fun out t₁ x₁ done => ?_)
      obtain ⟨rfl, rfl, books, found⟩ := done
      refine unname books found.stored empty found.linked rfl ?_ (fun k => ?_) fun _ _ books => books
      · unfold NodeData.base
        by_cases isDir : d.kind = .directory
        · rw [if_pos isDir, if_pos (found.kind.symm.trans isDir),
            found.nlink_eq books rfl isDir empty]
        · rw [if_neg isDir, if_neg fun dir => isDir (found.kind.trans dir)]
          rfl
      · rw [namesIn_some]
        split <;> omega

theorem adopt_does {old : Option DirEntry} {e : DirEntry} {ps : Slot Nat}
    (books : Books exact t x a b) (found : Found t x e slot d) (plive : t.map[parent]? = some ps)
    (surplus : 1 ≤ a parent) (spare : Spare t x old) (apart : ∀ e', old = some e' → e'.id ≠ e.id)
    (aside : ∀ e', old = some e' → e'.id ≠ parent ∧ e'.id ≠ newparent)
    (left : ∀ k, a' k = a k - (if k = parent then 1 else 0) +
      if k = newparent ∧ t.map[newparent]? ≠ none then 1 else 0) :
    Does (O := O) (adopt parent newparent e.id)
      (fun out t' x' => out = .ok () ∧ Books exact t' x' a' b ∧ Spare t' x' old ∧
        ((∃ s, t'.map[newparent]? = some s) ↔ ∃ s, t.map[newparent]? = some s)) t x := by
  refine .op fun w w' _ table ext step sound => ?_
  cases step
  subst table
  rw [ext]
  have re := Books.Relinks.reparent sound.tidy found.stored.live newparent
  have books₁ : Books exact (w.table.reparent e.id newparent) x a b := by
    refine books.relink found.stored re (books.single e.id slot d found.stored)
      (fun none => absurd none found.linked) (fun k => ?_) fun k => ?_
    · split <;> omega
    · split <;> omega
  have spare₁ : Spare (w.table.reparent e.id newparent) x old := by
    intro e' same
    obtain ⟨s, d', found', empty⟩ := spare e' same
    obtain ⟨s', stored', links⟩ := re.stored_after found.stored.live found.linked found'.stored
    rw [if_neg (apart e' same)] at links
    exact ⟨s', d', ⟨stored', links ▸ found'.linked, found'.kind, found'.shaped⟩, empty⟩
  have lives := re.live_iff found.stored.live found.linked
  obtain ⟨ps₁, plive₁⟩ := (lives parent).mpr ⟨ps, plive⟩
  refine .bind (.poke_live plive₁ fun pd pd' pstored made => ?_)
  cases made
  have nlink := books₁.nlink parent ps₁ pd pstored
  have books₂ : Books exact (w.table.reparent e.id newparent) (x.set ps₁.record.payload pd.subNlink)
      (fun k => a k - if k = parent then 1 else 0) b := by
    refine books₁.recount pstored (pd.nlink - 1) fun k => ?_
    split <;> omega
  have spare₂ : Spare (w.table.reparent e.id newparent) (x.set ps₁.record.payload pd.subNlink) old :=
    spare₁.set books₁ pstored fun e' same => (aside e' same).1
  refine .bind (.poke (fun dead => .ret ?_) fun ns nd nd' nstored made => .ret ?_)
  · have gone : w.table.map[newparent]? = none := by
      cases there : w.table.map[newparent]? with
      | none => rfl
      | some s =>
          obtain ⟨s', live'⟩ := (lives newparent).mpr ⟨s, there⟩
          rw [dead] at live'
          cases live'
    refine ⟨rfl, books₂.cast (funext fun k => ?_) rfl, spare₂, lives newparent⟩
    rw [left k, gone]
    simp
  · obtain ⟨s, live⟩ := (lives newparent).mp ⟨ns, nstored.live⟩
    have present : w.table.map[newparent]? ≠ none := by rw [live]; exact nofun
    unfold NodeData.addNlink at made
    simp only [Option.map_eq_some_iff] at made
    obtain ⟨n, add, rfl⟩ := made
    refine ⟨rfl, books₂.recount nstored n fun k => ?_, ?_, lives newparent⟩
    · have one : ((nd.nlink + 1 : Nat) : Int) - nd.nlink = 1 := by omega
      rw [left k, checkedAdd_eq_some add, one]
      simp only [present, ne_eq, not_false_eq_true, and_true]
    · exact spare₂.set books₂ nstored fun e' same => (aside e' same).2

theorem adoptIf_does {old : Option DirEntry} {e : DirEntry} {ps : Slot Nat}
    (books : Books exact t x a b) (found : Found t x e slot d) (plive : t.map[parent]? = some ps)
    (surplus : e.kind = .directory ∧ parent ≠ newparent → 1 ≤ a parent) (spare : Spare t x old)
    (apart : ∀ e', old = some e' → e'.id ≠ e.id)
    (aside : ∀ e', old = some e' → e'.id ≠ parent ∧ e'.id ≠ newparent)
    (left : ∀ k, a' k = if e.kind = .directory ∧ parent ≠ newparent then
      a k - (if k = parent then 1 else 0) + if k = newparent ∧ t.map[newparent]? ≠ none then 1 else 0
      else a k) :
    Does (O := O) (if e.kind = .directory ∧ parent ≠ newparent then adopt parent newparent e.id
        else .ret ())
      (fun out t' x' => out = .ok () ∧ Books exact t' x' a' b ∧ Spare t' x' old ∧
        ((∃ s, t'.map[newparent]? = some s) ↔ ∃ s, t.map[newparent]? = some s)) t x := by
  split
  · rename_i adopts
    refine adopt_does books found plive (surplus adopts) spare apart aside fun k => ?_
    rw [left k, if_pos adopts]
  · rename_i stays
    refine .ret ⟨rfl, books.cast (funext fun k => ?_) rfl, spare, Iff.rfl⟩
    rw [left k, if_neg stays]

/-- The node of an entry is there after a change at another or the same node. -/
theorem Found.survives {e : DirEntry} (found : Found t x e slot' d') (books : Books exact t x a b)
    (stored : Stored t x id slot d) {d₁ : NodeData} (kind : d₁.kind = d.kind) (shaped : d₁.Shaped) :
    ∃ d₂, Found t (x.set slot.record.payload d₁) e slot' d₂ := by
  by_cases same : e.id = id
  · subst same
    obtain ⟨rfl, rfl⟩ := found.stored.unique stored
    exact ⟨d₁, (books.stored_set found.stored).mpr (.inl ⟨rfl, rfl, rfl⟩), found.linked,
      kind.trans found.kind, shaped⟩
  · exact ⟨d', found.elsewhere books stored same⟩

theorem NodeData.shaped_of_dir {d : NodeData} {es : ExtTreeMap OsStr DirEntry}
    (dir : d.content = .dir es) (kind : d.kind = .directory) : d.Shaped :=
  ⟨fun _ => ⟨es, dir⟩, fun _ => kind⟩

/-- What `rename` does once both directories have changed. -/
def concludeMove (parent newparent : NodeId) (target : DirEntry) (old : Option DirEntry) :
    Body O Unit :=
  poke newparent some >>= fun _ =>
    (if target.kind = .directory ∧ parent ≠ newparent then adopt parent newparent target.id
    else .ret ()) >>= fun _ => dropReplaced newparent old

/-- Where the new directory is gone, the name goes with it. -/
theorem concludeMove_gone {target : DirEntry} {ps : Slot Nat}
    (books : Books exact t x (fun k => if k = parent then (dirsIn (some target) : Int) else 0)
      (fun k => owing k - if k = target.id then 1 else 0))
    (found : Found t x target slot d) (plive : t.map[parent]? = some ps)
    (dead : t.map[newparent]? = none) (loose : ¬ exact) :
    Does (O := O) (concludeMove parent newparent target none) (fun _ t x => Even exact t x) t x := by
  have counted : target.kind = .directory → dirsIn (some target) = 1 := fun isDir => if_pos isDir
  have uncounted : target.kind ≠ .directory → dirsIn (some target) = 0 := fun plain => if_neg plain
  have other : parent ≠ newparent := by
    rintro rfl
    rw [plive] at dead
    cases dead
  have balance : ∀ k, (0 : Int) = if target.kind = .directory ∧ parent ≠ newparent then
      (if k = parent then (dirsIn (some target) : Int) else 0) - (if k = parent then 1 else 0) +
        if k = newparent ∧ t.map[newparent]? ≠ none then 1 else 0
      else if k = parent then (dirsIn (some target) : Int) else 0 := by
    intro k
    rw [dead]
    by_cases isDir : target.kind = .directory
    · rw [if_pos ⟨isDir, other⟩, counted isDir]
      simp
    · rw [if_neg fun adopts => isDir adopts.1, uncounted isDir]
      simp
  have nothing : Spare t x none := nofun
  refine .bind (.poke (fun _ => ?_) fun _ _ _ nstored _ => ?_)
  · refine .bind ((adoptIf_does books found plive (fun adopts => ?_) nothing nofun nofun
      balance).mono fun out t' x' done => ?_)
    · simp [counted adopts.1]
    · obtain ⟨rfl, books, -, -⟩ := done
      refine .ret (books.loosen loose fun k => ?_)
      split <;> omega
  · rw [nstored.live] at dead
    cases dead

/-- What the two directories have too much or too little is made up for, and the replaced node loses
its link. -/
theorem concludeMove_does {old : Option DirEntry} {target : DirEntry} {ps ns : Slot Nat}
    (books : Books exact t x (fun k => (if k = parent then (dirsIn (some target) : Int) else 0) +
        if k = newparent then (dirsIn old - dirsIn (some target) : Int) else 0)
      (fun k => owing k - namesIn old k))
    (found : Found t x target slot d) (plive : t.map[parent]? = some ps)
    (nlive : t.map[newparent]? = some ns) (spare : Spare t x old)
    (aside : ∀ e, old = some e → e.id ≠ target.id ∧ e.id ≠ parent ∧ e.id ≠ newparent) :
    Does (O := O) (concludeMove parent newparent target old) (fun _ t x => Even exact t x) t x := by
  have counted : target.kind = .directory → dirsIn (some target) = 1 := fun isDir => if_pos isDir
  have uncounted : target.kind ≠ .directory → dirsIn (some target) = 0 := fun plain => if_neg plain
  let owed : NodeId → Int := fun k => if k = newparent then dirsIn old else 0
  have balance : ∀ k, owed k = if target.kind = .directory ∧ parent ≠ newparent then
      ((if k = parent then (dirsIn (some target) : Int) else 0) +
        if k = newparent then (dirsIn old - dirsIn (some target) : Int) else 0) -
        (if k = parent then 1 else 0) +
        if k = newparent ∧ t.map[newparent]? ≠ none then 1 else 0
      else (if k = parent then (dirsIn (some target) : Int) else 0) +
        if k = newparent then (dirsIn old - dirsIn (some target) : Int) else 0 := by
    intro k
    have present : t.map[newparent]? ≠ none := by rw [nlive]; exact nofun
    simp only [owed, present, ne_eq, not_false_eq_true, and_true]
    grind
  refine .bind (.poke_live nlive fun nd nd' nstored made => ?_)
  cases made
  have books₁ := books.mild nstored.data (.refl nd)
  have spare₁ : Spare t (x.set ns.record.payload nd) old :=
    spare.set books nstored fun e same => (aside e same).2.2
  obtain ⟨d₁, found₁⟩ := found.survives books nstored rfl (books.shaped nstored)
  refine .bind ((adoptIf_does books₁ found₁ plive (fun adopts => ?_) spare₁
    (fun e same => (aside e same).1) (fun e same => (aside e same).2) balance).mono
    fun out t' x' done => ?_)
  · rw [if_pos rfl, if_neg adopts.2, counted adopts.1]
    omega
  · obtain ⟨rfl, books', spare', lives⟩ := done
    obtain ⟨s, live⟩ := lives.mpr ⟨ns, nlive⟩
    exact dropReplaced_does books' live (fun e same => (aside e same).2.2) spare'

theorem move_does {old : Option DirEntry} {target : DirEntry} {ps fs : Slot Nat} {pd fd : NodeData}
    (even : Even exact t x) (pstored : Stored t x parent ps pd) (dir : pd.content = .dir es)
    (there : es[name]? = some target) (found : Found t x target fs fd)
    (linked : Linked exact t newparent)
    (dest : ∀ ns nd, Stored t x newparent ns nd → ∃ es, nd.content = .dir es ∧ es[newname]? = old)
    (moved : parent = newparent → name ≠ newname) (spare : Spare t x old)
    (aside : ∀ e, old = some e → e.id ≠ target.id ∧ e.id ≠ parent ∧ e.id ≠ newparent) :
    Does (O := O) (move parent name newparent newname target) (fun _ t x => Even exact t x) t x := by
  have isDir : pd.kind = .directory := (even.shaped pstored).mpr ⟨es, dir⟩
  let pd₁ : NodeData := { pd with content := .dir (es.erase name) }
  have books₁ : Books exact t (x.set ps.record.payload pd₁)
      (fun k => if k = parent then (dirsIn (some target) : Int) else 0)
      (fun k => owing k - if k = target.id then 1 else 0) := by
    refine even.erase pstored dir there pd.nlink rfl fun k => ?_
    split <;> omega
  have spare₁ : Spare t (x.set ps.record.payload pd₁) old :=
    spare.set even pstored fun e same => (aside e same).2.1
  obtain ⟨fd₁, found₁⟩ : ∃ d₂, Found t (x.set ps.record.payload pd₁) target fs d₂ :=
    found.survives even pstored rfl (NodeData.shaped_of_dir rfl isDir)
  refine .bind (.poke_stored pstored fun pd' made => ?_)
  rw [NodeData.onEntries_eq dir] at made
  cases made
  refine .bind (.poke (fun dead => ?_) fun ns nd nd' nstored made => ?_)
  · have loose : ¬ exact := fun ex => linked ex (linksOf_dead dead)
    exact .bind (.leave (concludeMove_gone books₁ found₁ pstored.live dead loose))
  · obtain ⟨es₁, dir₁, here⟩ : ∃ es₁, nd.content = .dir es₁ ∧ es₁[newname]? = old := by
      rcases (even.stored_set pstored).mp nstored with ⟨rfl, rfl, rfl⟩ | ⟨-, nstored⟩
      · obtain ⟨es', dir', there'⟩ := dest ns pd pstored
        rw [dir] at dir'
        cases dir'
        refine ⟨es.erase name, rfl, ?_⟩
        rw [ExtTreeMap.getElem?_erase, if_neg (by simpa using moved rfl)]
        exact there'
      · exact dest ns nd nstored
    rw [NodeData.onEntries_eq dir₁] at made
    cases made
    let nd₂ : NodeData := { nd with content := .dir (es₁.insert newname target) }
    have books₂ : Books exact t ((x.set ps.record.payload pd₁).set ns.record.payload nd₂)
        (fun k => (if k = parent then (dirsIn (some target) : Int) else 0) +
          if k = newparent then (dirsIn old - dirsIn (some target) : Int) else 0)
        (fun k => owing k - namesIn old k) := by
      refine books₁.rebind nstored dir₁ newname (some target) nd.nlink rfl
        (fun e same s d₁ stored => ?_) (fun ex _ => linked.links_ne nstored.live ex) (fun k => ?_)
        fun k => ?_
      · cases same
        obtain ⟨-, rfl⟩ := found₁.stored.unique stored
        exact found₁.kind
      · rw [here]
        split <;> split <;> omega
      · rw [here, namesIn_some]
        split <;> omega
    have spare₂ : Spare t ((x.set ps.record.payload pd₁).set ns.record.payload nd₂) old :=
      spare₁.set books₁ nstored fun e same => (aside e same).2.2
    obtain ⟨fd₂, found₂⟩ : ∃ d₂, Found t ((x.set ps.record.payload pd₁).set ns.record.payload nd₂)
        target fs d₂ := found₁.survives books₁ nstored rfl
      (NodeData.shaped_of_dir rfl ((books₁.shaped nstored).mpr ⟨es₁, dir₁⟩))
    have answer : replaced newname (some (nd, nd₂)) = .ok old := by
      simp only [replaced, dir₁, here]
    refine .bind (.leave ?_)
    rw [answer]
    exact concludeMove_does books₂ found₂ pstored.live nstored.live spare₂ aside

/-- What may be replaced has no entries. -/
theorem replaceable_ok {kind : FileKind} (ok : replaceable kind d = .ok ()) : d.entries = ∅ := by
  cases content : d.content with
  | dir es =>
      simp only [replaceable, content] at ok
      split at ok
      · cases ok
      · split at ok
        · rw [NodeData.entries_eq content]
          exact ExtTreeMap.isEmpty_iff.mp ‹_›
        · cases ok
  | file bytes => simp [NodeData.entries, content]
  | symlink target => simp [NodeData.entries, content]
  | special => simp [NodeData.entries, content]

/-- A node without entries is not a directory that has a name. -/
theorem Found.ne_of_entry {e : DirEntry} (found : Found t x e slot' d') (empty : d'.entries = ∅)
    (stored : Stored t x id slot d) (dir : d.content = .dir es) {e' : DirEntry}
    (there : es[name]? = some e') : e.id ≠ id := by
  rintro rfl
  obtain ⟨-, rfl⟩ := found.stored.unique stored
  rw [NodeData.entries_eq dir] at empty
  rw [empty] at there
  simp at there

theorem rename_does (even : Even exact t x) (linked : Linked exact t newparent) :
    Does (O := O) (rename parent name newparent newname) (fun _ t x => Even exact t x) t x := by
  refine .bind (.entry (fun _ => even) even fun ps pd es e pstored dir there => ?_)
  obtain ⟨slot, d, found⟩ := even.found pstored dir there (owing_le _)
  refine .bind (.kind (fun _ => even) fun slot' d' stored' => ?_)
  obtain ⟨rfl, rfl⟩ := found.stored.unique stored'
  have target : (⟨e.id, d'.kind⟩ : DirEntry) = e := by rw [found.kind]
  refine .bind (.findEntry (fun _ => even) (fun absent => ?_)
    fun ns nd es' e' nstored dir' there' => ?_)
  · show Does (move parent name newparent newname ⟨e.id, d'.kind⟩) _ _ _
    rw [target]
    refine move_does even pstored dir there found linked absent ?_ nofun nofun
    rintro rfl rfl
    obtain ⟨es', dir', none⟩ := absent ps pd pstored
    rw [dir] at dir'
    cases dir'
    rw [there] at none
    cases none
  · show Does (if _ then _ else _) _ _ _
    split
    · exact .ret even
    · rename_i other
      refine .bind (.peek (fun _ => even) fun slot₂ d₂ stored₂ => ?_)
      cases ok : replaceable d'.kind d₂ with
      | error _ => exact even
      | ok _ =>
          obtain ⟨slot₃, d₃, found'⟩ := even.found nstored dir' there' (owing_le _)
          obtain ⟨rfl, rfl⟩ := stored₂.unique found'.stored
          have empty := replaceable_ok ok
          show Does (move parent name newparent newname ⟨e.id, d'.kind⟩) _ _ _
          rw [target]
          have dest : ∀ ns₁ nd₁, Stored t x newparent ns₁ nd₁ →
              ∃ es₁, nd₁.content = .dir es₁ ∧ es₁[newname]? = some e' := by
            intro ns₁ nd₁ stored
            obtain ⟨-, rfl⟩ := nstored.unique stored
            exact ⟨es', dir', there'⟩
          refine move_does even pstored dir there found linked dest ?_ (fun e₁ same => ?_)
            fun e₁ same => ?_
          · rintro rfl rfl
            obtain ⟨-, rfl⟩ := pstored.unique nstored
            rw [dir] at dir'
            cases dir'
            rw [there] at there'
            cases there'
            exact other rfl
          · cases same
            exact ⟨slot₃, d₃, found', empty⟩
          · cases same
            exact ⟨other, found'.ne_of_entry empty pstored dir there,
              found'.ne_of_entry empty nstored dir' there'⟩

/-! ## Callbacks that change no name -/

theorem truncated_mild {size : Option Nat} (made : truncated size d = some d') : d.Mild d' := by
  unfold truncated at made
  split at made
  · rename_i file
    rw [Option.map_eq_some_iff] at made
    obtain ⟨bytes, -, rfl⟩ := made
    exact NodeData.mild_file file bytes
  · cases made
    exact .refl d

theorem applied_mild {set : SetAttr} (made : applied set d = some d') : d.Mild d' := by
  unfold applied at made
  cases modeOf : set.mode with
  | none =>
      rw [modeOf] at made
      exact truncated_mild made
  | some mode =>
      rw [modeOf] at made
      have first : d.Mild { d with perm := mode &&& 0o7777 } :=
        ⟨rfl, fun shaped => shaped, rfl, rfl⟩
      exact first.trans (truncated_mild made)

theorem write_mild {data : List UInt8} {offset : Nat}
    (made : (match d.content with
      | .file bytes => (splice bytes data offset).map fun bytes => { d with content := .file bytes }
      | _ => some d) = some d') : d.Mild d' := by
  split at made
  · rename_i bytes file
    rw [Option.map_eq_some_iff] at made
    obtain ⟨bytes', -, rfl⟩ := made
    exact NodeData.mild_file file bytes'
  · cases made
    exact .refl d

/-- A write of one cell that changes nothing about names. -/
theorem writeNode_does {α : Type} {cell : Nat} {f : NodeData → Option NodeData}
    {k : NodeData × NodeData → Body O α} (even : Even exact t x)
    (mild : ∀ d d', f d = some d' → d.Mild d')
    (rest : ∀ r x', Even exact t x' → Does (k r) (fun _ t x => Even exact t x) t x') :
    Does (writeNode cell f >>= k) (fun _ t x => Even exact t x) t x := by
  exact .bind (.writeNode fun d d' data made => rest _ _ (even.mild data (mild d d' made)))

theorem offerFrom_does (l : List (OsStr × DirEntry)) (i : Nat) (even : Even exact t x) :
    Does (offerFrom l i) (fun _ t x => Even exact t x) t x := by
  induction l generalizing i t with
  | nil => exact .ret even
  | cons entry rest ih =>
      refine .offer fun r t' trims => ?_
      match r with
      | none => exact .panic
      | some true => exact ih (i + 1) (even.trims trims)
      | some false => exact .ret (even.trims trims)

theorem offerDot_does {id : NodeId} {place cursor : Nat} {rest : Nat → Body DirOffer Unit}
    (even : Even exact t x)
    (after : ∀ t' cursor, Even exact t' x → Does (rest cursor) (fun _ t x => Even exact t x) t' x) :
    Does (offerDot name id place cursor rest) (fun _ t x => Even exact t x) t x := by
  unfold offerDot
  split
  · refine .offer fun r t' trims => ?_
    match r with
    | none => exact .panic
    | some true => exact after t' place (even.trims trims)
    | some false => exact .ret (even.trims trims)
  · exact after t cursor even

/-- The books of a world between requests. -/
def Rest (exact : Prop) (w : World memoryTypes Cells) : Prop := Even exact w.table w.ext

theorem rest_lasting (exact : Prop) : Lasting (X := memoryMachine) (Rest exact) := by
  intro w w' rest trims ext
  unfold Rest
  rw [ext]
  exact rest.trims trims

theorem callKeeping {O α : Type} {cb : ReadCallback memoryTypes O α}
    (does : ∀ t x, Even exact t x → Does cb (fun _ t x => Even exact t x) t x) :
    CallKeeping (X := memoryMachine) (Rest exact) cb :=
  fun w rest => does w.table w.ext rest w rfl rfl

theorem keeping (exact : Prop) : memoryFs.Keeping (X := memoryMachine) (Rest exact) := by
  have refused : ∀ {O α : Type} {e : Exit},
      CallKeeping (X := memoryMachine) (Rest exact) (.exit e : ReadCallback memoryTypes O α) :=
    fun {O α e} => callKeeping fun t x even => .exit even
  have returned : ∀ {O α : Type} {a : α},
      CallKeeping (X := memoryMachine) (Rest exact) (.ret a : ReadCallback memoryTypes O α) :=
    fun {O α a} => callKeeping fun t x even => .ret even
  have looked : ∀ {O α : Type} {cell : Nat} {f : NodeData → Except Exit α},
      CallKeeping (X := memoryMachine) (Rest exact) (readNode cell f : Body O α) :=
    fun {O α cell f} => callKeeping fun t x even => .readNode fun _ _ => even
  have idle : ∀ {α : Type} {a : α},
      TotalKeeping (X := memoryMachine) (Rest exact) (.ret a : TotalCallback memoryTypes α) :=
    fun {α a} w rest _ _ => rest
  constructor
  case lookup =>
      intro parent name _
      refine callKeeping fun t x even => .bind (.findEntry (fun _ => even) (fun _ => .ret even)
        fun _ _ _ _ _ _ _ => .ret even)
  case setattr =>
      intro cell _ set _
      refine callKeeping fun t x even => writeNode_does even (fun d d' made => applied_mild made)
        fun r x' even => .ret even
  case write =>
      intro cell _ data offset _
      refine callKeeping fun t x even => writeNode_does even (fun d d' made => write_mild made)
        fun (before, _) x' even => ?_
      show Does (match before.content with | .file _ => _ | _ => _) _ _ _
      split
      · exact .ret even
      · exact .exit even
  case setxattr =>
      intro cell name value flags _
      refine callKeeping fun t x even => writeNode_does even (fun d d' made => ?_)
        fun (before, _) x' even => ?_
      · cases made
        split
        · exact .refl d
        · exact ⟨rfl, fun shaped => shaped, rfl, rfl⟩
      · simp only
        split
        · exact .exit even
        · exact .ret even
  case removexattr =>
      intro cell name _
      refine callKeeping fun t x even => writeNode_does even (fun d d' made => ?_)
        fun (before, _) x' even => ?_
      · cases made
        exact ⟨rfl, fun shaped => shaped, rfl, rfl⟩
      · simp only
        split
        · exact .ret even
        · exact .exit even
  case readdir =>
      intro cell this parent _ offset _
      refine callKeeping fun t x even => .bind (.readNode fun d _ => ?_)
      cases content : d.content with
      | dir es =>
          exact offerDot_does even fun t' cursor even => offerDot_does even fun t' cursor even =>
            offerFrom_does _ _ even
      | file bytes => exact even
      | symlink target => exact even
      | special => exact even
  all_goals intros; first | exact looked | exact refused | exact returned | exact idle

end MemoryFs

end TypedFuse
