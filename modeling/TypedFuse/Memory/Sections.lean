import TypedFuse.Memory.Links
import TypedFuse.Runtime.Keeping

/-!
# What the sections of the in-memory filesystem do

`Does` is the weakest precondition of a part of a callback that runs alone, over the node table and
the cells.  A lookup with its reference dropped again leaves the table as it was (`dropRef_get`), so
each section of a callback is one change of the cells or of the table.
-/

namespace TypedFuse

open Std Prog NodeTable TypedFuse.Runtime

variable {N : Type} {t t' : NodeTable N} {id : NodeId} {slot : Slot N}

/-- A lookup and the drop of its reference leave a tidy table as it was. -/
theorem NodeTable.dropRef_get (tidy : t.Tidy) (live : t.map[id]? = some slot) :
    (t.settle id { slot with leases := slot.leases + 1 }).dropRef ⟨id, slot.record.ptr⟩ = t := by
  have held : ({ slot with leases := slot.leases + 1 } : Slot N).droppable = false := by
    simp [Slot.droppable]
  have here : (t.settle id { slot with leases := slot.leases + 1 }).map[id]? =
      some { slot with leases := slot.leases + 1 } := by
    rw [settle_map, held]
    simp
  rw [dropRef_eq (r := ⟨id, slot.record.ptr⟩) here rfl, settle_eq_put held]
  have back : ({ slot with leases := slot.leases + 1 - 1 } : Slot N) = slot := rfl
  simp only [back]
  rw [settle_eq_put (tidy id slot live)]
  have map : (t.map.insert id { slot with leases := slot.leases + 1 }).insert id slot = t.map := by
    refine ExtTreeMap.ext_getElem? fun k => ?_
    rw [ExtTreeMap.getElem?_insert, ExtTreeMap.getElem?_insert]
    by_cases same : id = k
    · subst same
      simp [live]
    · simp [same]
  unfold put
  simp only [map]

namespace MemoryFs

variable {O α β : Type} {t t' : NodeTable Nat} {x x' : Cells} {id : NodeId} {slot : Slot Nat}
  {d d' : NodeData} {Q Q' : Except Exit α → NodeTable Nat → Cells → Prop}

/-- Alone on this table and these cells, the body ends with `Q`, unless it panics. -/
def Does (p : Body O α) (Q : Except Exit α → NodeTable Nat → Cells → Prop) (t : NodeTable Nat)
    (x : Cells) : Prop :=
  ∀ w : World memoryTypes Cells, w.table = t → w.ext = x →
    p.wp (aloneIn memoryMachine O) (fun out w' => out = .error .panic ∨ Q out w'.table w'.ext) w

namespace Does

theorem ret {a : α} (done : Q (.ok a) t x) : Does (O := O) (.ret a) Q t x := by
  intro w table ext
  subst table ext
  exact .inr done

theorem exit {e : Exit} (done : Q (.error e) t x) : Does (O := O) (.exit e) Q t x := by
  intro w table ext
  subst table ext
  exact .inr done

theorem panic : Does (O := O) (α := α) (.exit .panic) Q t x := fun _ _ _ => .inl rfl

theorem leave {out : Except Exit α} (done : Q out t x) : Does (O := O) (.leave out) Q t x := by
  intro w table ext
  subst table ext
  exact wp.leave (.inr done)

theorem mono {p : Body O α} (does : Does p Q t x) (imp : ∀ out t x, Q out t x → Q' out t x) :
    Does p Q' t x := by
  intro w table ext
  refine (does w table ext).mono fun out w' done => ?_
  rcases done with panic | done
  · exact .inl panic
  · exact .inr (imp out _ _ done)

/-- What is left to do after a part. -/
abbrev After (f : α → Body O β) (Q : Except Exit β → NodeTable Nat → Cells → Prop) :
    Except Exit α → NodeTable Nat → Cells → Prop
  | .ok a, t, x => Does (f a) Q t x
  | .error e, t, x => Q (.error e) t x

theorem bind {Q : Except Exit β → NodeTable Nat → Cells → Prop} {p : Body O α} {f : α → Body O β}
    (first : Does p (After f Q) t x) : Does (p >>= f) Q t x := by
  intro w table ext
  refine wp.bind ((first w table ext).mono fun out w' done => ?_)
  rcases done with rfl | done
  · exact .inl rfl
  · cases out with
    | ok a => exact done w' rfl rfl
    | error e => exact .inr done

theorem attempt {Q : Except Exit (Except Exit α) → NodeTable Nat → Cells → Prop} {p : Body O α}
    (body : Does p (fun out t x => Q (.ok out) t x) t x)
    (crash : ∀ t x, Q (.ok (.error .panic)) t x) : Does p.attempt Q t x := by
  intro w table ext
  refine wp.attempt ((body w table ext).mono fun out w' done => ?_)
  rcases done with rfl | done
  · exact .inr (crash _ _)
  · exact .inr done

/-! ## Operations -/

theorem op {o : CxOp memoryTypes} {k : o.Res → Body O α}
    (next : ∀ (w w' : World memoryTypes Cells) (r : o.Res), w.table = t → w.ext = x →
      World.cxStep memoryMachine o w r w' → Sound memoryMachine w → Does (k r) Q w'.table w'.ext) :
    Does (.op (.cx o) k) Q t x := by
  intro w table ext r w' step
  exact next w w' r table ext step.1 step.2.1 w' rfl rfl

/-- The sink may take a reference, which changes no link. -/
theorem offer {e : O} {k : Option Bool → Body O α}
    (next : ∀ r t', t.Trims t' → Does (k r) Q t' x) : Does (.op (.offer e) k) Q t x := by
  intro w table ext r w' step
  subst table ext
  exact next r w'.table step.1 w' rfl step.2

theorem readNode {cell : Nat} {f : NodeData → Except Exit α}
    (there : ∀ d, x.data[cell]? = some d → Q (f d) t x) :
    Does (O := O) (readNode cell f) Q t x := by
  refine op fun w w' r table ext step _ => ?_
  obtain ⟨x', read, rfl⟩ := step
  subst table ext
  cases data : w.ext.data[cell]? with
  | none =>
      simp only [Cells.exec, data] at read
      obtain ⟨rfl, rfl⟩ := read
      exact panic
  | some d =>
      simp only [Cells.exec, data] at read
      obtain ⟨rfl, rfl⟩ := read
      exact leave (there d data)

theorem writeNode {cell : Nat} {f : NodeData → Option NodeData}
    {Q : Except Exit (NodeData × NodeData) → NodeTable Nat → Cells → Prop}
    (there : ∀ d d', x.data[cell]? = some d → f d = some d' → Q (.ok (d, d')) t (x.set cell d')) :
    Does (O := O) (writeNode cell f) Q t x := by
  refine op fun w w' r table ext step _ => ?_
  obtain ⟨x', wrote, rfl⟩ := step
  subst table ext
  cases data : w.ext.data[cell]? with
  | none =>
      simp only [Cells.exec, data] at wrote
      obtain ⟨rfl, rfl⟩ := wrote
      exact panic
  | some d =>
      cases made : f d with
      | none =>
          simp only [Cells.exec, data, made] at wrote
          obtain ⟨rfl, rfl⟩ := wrote
          exact panic
      | some d' =>
          simp only [Cells.exec, data, made] at wrote
          obtain ⟨rfl, rfl⟩ := wrote
          exact ret (there d d' data made)

/-- The reference counts as a lease in the body, and its drop changes no link. -/
theorem withRef {absent : Body O α} {body : Nat → Body O α}
    (dead : t.map[id]? = none → Does absent Q t x)
    (there : ∀ slot : Slot Nat, t.map[id]? = some slot → t.Tidy →
      Does (body slot.record.payload) (fun out t₂ x₂ => ∀ t₃, t₂.Tidy →
        t₃ = t₂.dropRef ⟨id, slot.record.ptr⟩ → Q out t₃ x₂)
        (t.settle id { slot with leases := slot.leases + 1 }) x) :
    Does (withRef id absent body) Q t x := by
  refine op fun w w' r table ext step sound => ?_
  obtain ⟨rfl, rfl⟩ := step
  subst table ext
  rcases get_cases w.table id with ⟨gone, eq⟩ | eq | ⟨slot, live, eq⟩
  · rw [eq]
    exact dead gone
  · rw [eq]
    exact panic
  · rw [eq]
    intro w₁ table ext
    have inside := there slot live sound.tidy w₁ table ext
    refine wp.andFinally (inside.mono fun out w₂ done _ w₃ step => ⟨rfl, ?_⟩)
    rcases done with panic | done
    · exact .inl panic
    · obtain ⟨⟨-, rfl⟩, sound₂, -⟩ := step
      exact .inr (done _ sound₂.tidy rfl)

theorem peek {f : NodeData → Except Exit α}
    (dead : t.map[id]? = none → Q (.error (.errno .ENOENT)) t x)
    (there : ∀ slot d, Stored t x id slot d → Q (f d) t x) : Does (O := O) (peek id f) Q t x := by
  refine withRef (fun gone => exit (dead gone)) fun slot live tidy =>
    readNode fun d data t₃ _ eq => ?_
  rw [eq, dropRef_get tidy live]
  exact there slot d ⟨live, data⟩

theorem poke {f : NodeData → Option NodeData}
    {Q : Except Exit (Option (NodeData × NodeData)) → NodeTable Nat → Cells → Prop}
    (dead : t.map[id]? = none → Q (.ok none) t x)
    (there : ∀ slot d d', Stored t x id slot d → f d = some d' →
      Q (.ok (some (d, d'))) t (x.set slot.record.payload d')) : Does (O := O) (poke id f) Q t x := by
  refine withRef (fun gone => ret (dead gone)) fun slot live tidy =>
    bind (writeNode fun d d' data made => ret fun t₃ _ eq => ?_)
  rw [eq, dropRef_get tidy live]
  exact there slot d d' ⟨live, data⟩ made

/-- An update of a node that is in the table. -/
theorem poke_live {f : NodeData → Option NodeData}
    {Q : Except Exit (Option (NodeData × NodeData)) → NodeTable Nat → Cells → Prop}
    (live : t.map[id]? = some slot)
    (there : ∀ d d', Stored t x id slot d → f d = some d' →
      Q (.ok (some (d, d'))) t (x.set slot.record.payload d')) :
    Does (O := O) (MemoryFs.poke id f) Q t x := by
  refine poke (fun gone => ?_) fun slot' d d' stored made => ?_
  · rw [live] at gone
    cases gone
  · have slots := stored.live.symm.trans live
    cases slots
    exact there d d' stored made

/-- An update of a node that is known to be there. -/
theorem poke_stored {f : NodeData → Option NodeData}
    {Q : Except Exit (Option (NodeData × NodeData)) → NodeTable Nat → Cells → Prop}
    (stored : Stored t x id slot d)
    (there : ∀ d', f d = some d' → Q (.ok (some (d, d'))) t (x.set slot.record.payload d')) :
    Does (O := O) (MemoryFs.poke id f) Q t x := by
  refine poke_live stored.live fun e e' stored' made => ?_
  obtain ⟨-, rfl⟩ := stored.unique stored'
  exact there e' made

/-! ## Entries -/

theorem kind {Q : Except Exit FileKind → NodeTable Nat → Cells → Prop}
    (fail : ∀ e, Q (.error e) t x) (there : ∀ slot d, Stored t x id slot d → Q (.ok d.kind) t x) :
    Does (O := O) (MemoryFs.kind id) Q t x :=
  peek (fun _ => fail _) there

theorem checkNewEntry {name : OsStr} {Q : Except Exit Unit → NodeTable Nat → Cells → Prop}
    (fail : ∀ e, Q (.error e) t x)
    (free : ∀ slot d es, Stored t x id slot d → d.content = .dir es → es[name]? = none →
      Q (.ok ()) t x) : Does (O := O) (MemoryFs.checkNewEntry id name) Q t x := by
  refine peek (fun _ => fail _) fun slot d stored => ?_
  cases content : d.content with
  | dir es =>
      simp only
      split
      · exact fail _
      · rename_i absent
        refine free slot d es stored content ?_
        rw [ExtTreeMap.getElem?_eq_none]
        simpa using absent
  | file bytes => exact fail _
  | symlink target => exact fail _
  | special => exact fail _

theorem entry {name : OsStr} {Q : Except Exit DirEntry → NodeTable Nat → Cells → Prop}
    (missing : (∀ slot d, Stored t x id slot d → ∃ es, d.content = .dir es ∧ es[name]? = none) →
      Q (.error (.errno .ENOENT)) t x)
    (other : Q (.error (.errno .ENOTDIR)) t x)
    (found : ∀ slot d es e, Stored t x id slot d → d.content = .dir es → es[name]? = some e →
      Q (.ok e) t x) : Does (O := O) (MemoryFs.entry id name) Q t x := by
  refine peek (fun gone => missing fun slot d stored => ?_) fun slot d stored => ?_
  · rw [stored.live] at gone
    cases gone
  · cases content : d.content with
    | dir es =>
        cases there : es[name]? with
        | none =>
            simp only [there, okOr]
            refine missing fun slot' d' stored' => ?_
            obtain ⟨-, rfl⟩ := stored.unique stored'
            exact ⟨es, content, there⟩
        | some e =>
            simp only [there, okOr]
            exact found slot d es e stored content there
    | file bytes => exact other
    | symlink target => exact other
    | special => exact other

theorem findEntry {name : OsStr} {Q : Except Exit (Option DirEntry) → NodeTable Nat → Cells → Prop}
    (fail : ∀ e, Q (.error e) t x)
    (absent : (∀ slot d, Stored t x id slot d → ∃ es, d.content = .dir es ∧ es[name]? = none) →
      Q (.ok none) t x)
    (found : ∀ slot d es e, Stored t x id slot d → d.content = .dir es → es[name]? = some e →
      Q (.ok (some e)) t x) : Does (O := O) (MemoryFs.findEntry id name) Q t x := by
  refine bind (attempt (entry (fun missing => ?_) ?_ fun slot d es e stored dir there => ?_) ?_)
  · exact ret (absent missing)
  · exact exit (fail _)
  · exact ret (found slot d es e stored dir there)
  · exact fun t x => panic

end Does

end MemoryFs

end TypedFuse
