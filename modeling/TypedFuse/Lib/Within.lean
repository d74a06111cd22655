import TypedFuse.Lib.Ghost

/-!
# Running alone within an invariant

The rules of `Prog.wp` for programs whose operations are programs over another machine, a machine
that records its steps (`Machine.logged`), and two ways to cut a machine down: to the steps that are
allowed (`Machine.restrict`), and to the steps between states with an invariant (`Machine.within`).  A safe program started with its resources never leaves
the invariant of its protocol, so for it the second changes nothing (`Exec.within`).
-/

namespace Prog

variable {S S' : Sig} {ε ε' α β σ : Type}

/-- The machine with only those steps that are `ok`. -/
def Machine.restrict (M : Machine S) (ok : M.State → (o : S.Op) → S.Res o → Prop) : Machine S :=
  ⟨M.State, fun o w r w' => M.step o w r w' ∧ ok w o r⟩

/-- The machine with only its steps between states that have `I`. -/
def Machine.within (M : Machine S) (I : M.State → Prop) : Machine S :=
  ⟨M.State, fun o w r w' => M.step o w r w' ∧ I w ∧ I w'⟩

/-- The machine that keeps a record of what is done. -/
def Machine.logged (M : Machine S) : Machine S :=
  ⟨M.State × Past S, fun o w r w' => M.step o w.1 r w'.1 ∧ w'.2 = w.2 ++ [⟨o, r⟩]⟩

variable {M : Machine S} {w w' : M.State} {p : Prog S ε α}

theorem Exec.of_restrict {ok : M.State → (o : S.Op) → S.Res o → Prop} {out : Except ε α}
    (run : p.Exec (M.restrict ok) w out w') : p.Exec M w out w' := by
  induction p generalizing w with
  | ret a => exact run
  | exit e => exact run
  | op o k ih =>
      obtain ⟨r, w₁, step, rest⟩ := run
      exact ⟨r, w₁, step.1, ih r rest⟩

theorem Exec.unrestricted {out : Except ε α} (run : p.Exec M w out w') :
    p.Exec (M.restrict fun _ _ _ => True) w out w' := by
  induction p generalizing w with
  | ret a => exact run
  | exit e => exact run
  | op o k ih =>
      obtain ⟨r, w₁, step, rest⟩ := run
      exact ⟨r, w₁, ⟨step, trivial⟩, ih r rest⟩

theorem wp.mapExit {f : ε → ε'} {Q : Except ε' α → M.State → Prop}
    (h : p.wp M (fun out w' => Q (out.mapError f) w') w) : (p.mapExit f).wp M Q w := by
  induction p generalizing w with
  | ret a => exact h
  | exit e => exact h
  | op o k ih => exact fun r w' step => ih r (h r w' step)

/-! ## Operations replaced by programs -/

section Interp

variable {N : (o : S'.Op) → M.State → S'.Res o → M.State → Prop} {p : Prog S' ε α}

/-- Programs that take the steps of another machine. -/
theorem wp.interp {f : (o : S'.Op) → Prog S ε (S'.Res o)} {Q : Except ε α → M.State → Prop}
    (ops : ∀ o w, (f o).wp M (fun out w' => ∃ r, out = .ok r ∧ N o w r w') w)
    (h : p.wp ⟨M.State, N⟩ Q w) : (p.interp f).wp M Q w := by
  induction p generalizing w with
  | ret a => exact h
  | exit e => exact h
  | op o k ih =>
      refine wp.bind ((ops o w).mono fun out w' done => ?_)
      obtain ⟨r, rfl, step⟩ := done
      exact ih r (h r w' step)

theorem wp.interpState {f : (o : S'.Op) → σ → Prog S ε (S'.Res o × σ)}
    {Q : Except ε (Except ε α × σ) → M.State → Prop}
    (ops : ∀ o s w, (f o s).wp M (fun out w' => ∃ r s', out = .ok (r, s') ∧ N o w r w') w) {s : σ}
    (h : p.wp ⟨M.State, N⟩ (fun out w' => ∀ s', Q (.ok (out, s')) w') w) :
    (p.interpState f s).wp M Q w := by
  induction p generalizing w s with
  | ret a => exact h s
  | exit e => exact h s
  | op o k ih =>
      rw [Prog.interpState]
      refine wp.bind (wp.attempt ((ops o s w).mono fun out w' done => ?_))
      obtain ⟨r, s', rfl, step⟩ := done
      exact ih r (h r w' step)

/-- The same for programs that pass on a state of their own, as steps of both together. -/
theorem wp.interpStateWith {f : (o : S'.Op) → σ → Prog S ε (S'.Res o × σ)}
    {N : (o : S'.Op) → M.State × σ → S'.Res o → M.State × σ → Prop}
    {Q : Except ε (Except ε α × σ) → M.State → Prop}
    (ops : ∀ o s w, (f o s).wp M
      (fun out w' => ∃ r s', out = .ok (r, s') ∧ N o (w, s) r (w', s')) w) {s : σ}
    (h : p.wp ⟨M.State × σ, N⟩ (fun out z => Q (.ok (out, z.2)) z.1) (w, s)) :
    (p.interpState f s).wp M Q w := by
  induction p generalizing w s with
  | ret a => exact h
  | exit e => exact h
  | op o k ih =>
      rw [Prog.interpState]
      refine wp.bind (wp.attempt ((ops o s w).mono fun out w' done => ?_))
      obtain ⟨r, s', rfl, step⟩ := done
      exact ih r (h r (w', s') step)

end Interp

/-! ## Safe programs -/

section Within

variable {R : Type} [AddCommMonoid R] {G : Protocol M R} {T F : R} {Q : Except ε α → R → Prop}

/-- A safe program stays within the invariant of its protocol. -/
theorem Exec.within {ok : M.State → (o : S.Op) → S.Res o → Prop} {out : Except ε α}
    (safe : p.Safe G T Q) (inv : G.inv w (T + F)) (run : p.Exec (M.restrict ok) w out w') :
    p.Exec ((M.restrict ok).within fun w => ∃ T, G.inv w T) w out w' := by
  induction p generalizing w T with
  | ret a => exact run
  | exit e => exact run
  | op o k ih =>
      obtain ⟨r, w₁, step, rest⟩ := run
      obtain ⟨T', inv', safe'⟩ := (safe w F inv).2 r w₁ step.1
      exact ⟨r, w₁, ⟨step, ⟨_, inv⟩, _, inv'⟩, ih r safe' inv' rest⟩

end Within

end Prog
