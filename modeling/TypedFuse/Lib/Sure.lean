import TypedFuse.Lib.Within

/-!
# Operations that are never reached

`Prog.wp` says nothing of a run that gets stuck.  `Prog.sure` is `wp` for programs that also keep
away from `bad` operations: it has the same rules, and a program that is sure never gets to a bad
operation, in no run and however far it gets (`sure.meets`).
-/

namespace Prog

variable {S S' : Sig} {ε ε' α β σ : Type} {M : Machine S} {bad : S.Op → Prop} {w w' : M.State}

/-- What holds after every execution, none of which gets to a `bad` operation. -/
def sure (M : Machine S) (bad : S.Op → Prop) :
    Prog S ε α → (Except ε α → M.State → Prop) → M.State → Prop
  | .ret a, Q, w => Q (.ok a) w
  | .exit e, Q, w => Q (.error e) w
  | .op o k, Q, w => ¬bad o ∧ ∀ r w', M.step o w r w' → (k r).sure M bad Q w'

/-- A run of the program from `w` gets to the operation `o` in the state `w'`. -/
def Meets (M : Machine S) : Prog S ε α → M.State → S.Op → M.State → Prop
  | .ret _, _, _, _ => False
  | .exit _, _, _, _ => False
  | .op o k, w, o', w' => (o' = o ∧ w' = w) ∨ ∃ r w₁, M.step o w r w₁ ∧ (k r).Meets M w₁ o' w'

theorem sure.meets {p : Prog S ε α} {Q : Except ε α → M.State → Prop} {o : S.Op}
    (h : p.sure M bad Q w) (meets : p.Meets M w o w') : ¬bad o := by
  induction p generalizing w with
  | ret a => exact meets.elim
  | exit e => exact meets.elim
  | op o' k ih =>
      rcases meets with ⟨rfl, -⟩ | ⟨r, w₁, step, rest⟩
      · exact h.1
      · exact ih r (h.2 r w₁ step) rest

theorem sure.wp {p : Prog S ε α} {Q : Except ε α → M.State → Prop} (h : p.sure M bad Q w) :
    p.wp M Q w := by
  induction p generalizing w with
  | ret a => exact h
  | exit e => exact h
  | op o k ih => exact fun r w' step => ih r (h.2 r w' step)

/-- Nothing is bad. -/
theorem wp.sure {p : Prog S ε α} {Q : Except ε α → M.State → Prop} (h : p.wp M Q w)
    (never : ∀ o, ¬bad o) : p.sure M bad Q w := by
  induction p generalizing w with
  | ret a => exact h
  | exit e => exact h
  | op o k ih => exact ⟨never o, fun r w' step => ih r (h r w' step)⟩

theorem sure.exec {p : Prog S ε α} {Q : Except ε α → M.State → Prop} {out : Except ε α}
    (h : p.sure M bad Q w) (run : p.Exec M w out w') : Q out w' :=
  h.wp.exec run

/-- What is known of the executions of a program that is sure. -/
theorem sure.of_exec {p : Prog S ε α} {Q Q' : Except ε α → M.State → Prop}
    (h : p.sure M bad Q w) (ends : ∀ out w', p.Exec M w out w' → Q' out w') :
    p.sure M bad Q' w := by
  induction p generalizing w with
  | ret a => exact ends _ _ ⟨rfl, rfl⟩
  | exit e => exact ends _ _ ⟨rfl, rfl⟩
  | op o k ih =>
      refine ⟨h.1, fun r w' step => ih r (h.2 r w' step) fun out w'' run => ?_⟩
      exact ends out w'' ⟨r, w', step, run⟩

theorem sure.mono {p : Prog S ε α} {Q Q' : Except ε α → M.State → Prop} (h : p.sure M bad Q w)
    (hQ : ∀ out w', Q out w' → Q' out w') : p.sure M bad Q' w := by
  induction p generalizing w with
  | ret a => exact hQ _ _ h
  | exit e => exact hQ _ _ h
  | op o k ih => exact ⟨h.1, fun r w' step => ih r (h.2 r w' step)⟩

theorem sure.weaken {bad' : S.Op → Prop} {p : Prog S ε α} {Q : Except ε α → M.State → Prop}
    (h : p.sure M bad Q w) (less : ∀ o, bad' o → bad o) : p.sure M bad' Q w := by
  induction p generalizing w with
  | ret a => exact h
  | exit e => exact h
  | op o k ih => exact ⟨fun isBad => h.1 (less o isBad), fun r w' step => ih r (h.2 r w' step)⟩

theorem sure.bind {p : Prog S ε α} {f : α → Prog S ε β} {Q : Except ε β → M.State → Prop}
    (h : p.sure M bad (fun out w' =>
      match out with
      | .ok a => (f a).sure M bad Q w'
      | .error e => Q (.error e) w') w) :
    (p >>= f).sure M bad Q w := by
  induction p generalizing w with
  | ret a => exact h
  | exit e => exact h
  | op o k ih => exact ⟨h.1, fun r w' step => ih r (h.2 r w' step)⟩

theorem sure.attempt {p : Prog S ε α} {Q : Except ε' (Except ε α) → M.State → Prop}
    (h : p.sure M bad (fun out w' => Q (.ok out) w') w) :
    (Prog.attempt p : Prog S ε' (Except ε α)).sure M bad Q w := by
  induction p generalizing w with
  | ret a => exact h
  | exit e => exact h
  | op o k ih => exact ⟨h.1, fun r w' step => ih r (h.2 r w' step)⟩

theorem sure.leave {out : Except ε α} {Q : Except ε α → M.State → Prop} (h : Q out w) :
    (Prog.leave out : Prog S ε α).sure M bad Q w := by
  cases out with
  | ok a => exact h
  | error e => exact h

/-- A finaliser that cannot itself exit runs on every way out. -/
theorem sure.andFinally {p : Prog S ε α} {fin : Prog S ε Unit} {Q : Except ε α → M.State → Prop}
    (h : p.sure M bad
      (fun out w' => fin.sure M bad (fun ended w'' => ended = .ok () ∧ Q out w'') w') w) :
    (p.andFinally fin).sure M bad Q w := by
  refine sure.bind (sure.attempt (h.mono fun out w' hfin => ?_))
  refine sure.bind (hfin.mono fun ended w'' hended => ?_)
  obtain ⟨rfl, done⟩ := hended
  exact sure.leave done

theorem sure.mapExit {p : Prog S ε α} {f : ε → ε'} {Q : Except ε' α → M.State → Prop}
    (h : p.sure M bad (fun out w' => Q (out.mapError f) w') w) :
    (p.mapExit f).sure M bad Q w := by
  induction p generalizing w with
  | ret a => exact h
  | exit e => exact h
  | op o k ih => exact ⟨h.1, fun r w' step => ih r (h.2 r w' step)⟩

section Interp

variable {N : (o : S'.Op) → M.State → S'.Res o → M.State → Prop} {bad' : S'.Op → Prop}
  {p : Prog S' ε α}

/-- Programs that take the steps of another machine, and get to a bad operation of this one only by
a bad operation of the other. -/
theorem sure.interp {f : (o : S'.Op) → Prog S ε (S'.Res o)} {Q : Except ε α → M.State → Prop}
    (ops : ∀ o w, ¬bad' o → (f o).sure M bad (fun out w' => ∃ r, out = .ok r ∧ N o w r w') w)
    (h : p.sure ⟨M.State, N⟩ bad' Q w) : (p.interp f).sure M bad Q w := by
  induction p generalizing w with
  | ret a => exact h
  | exit e => exact h
  | op o k ih =>
      refine sure.bind ((ops o w h.1).mono fun out w' done => ?_)
      obtain ⟨r, rfl, step⟩ := done
      exact ih r (h.2 r w' step)

theorem sure.interpState {f : (o : S'.Op) → σ → Prog S ε (S'.Res o × σ)}
    {Q : Except ε (Except ε α × σ) → M.State → Prop}
    (ops : ∀ o s w, ¬bad' o →
      (f o s).sure M bad (fun out w' => ∃ r s', out = .ok (r, s') ∧ N o w r w') w) {s : σ}
    (h : p.sure ⟨M.State, N⟩ bad' (fun out w' => ∀ s', Q (.ok (out, s')) w') w) :
    (p.interpState f s).sure M bad Q w := by
  induction p generalizing w s with
  | ret a => exact h s
  | exit e => exact h s
  | op o k ih =>
      rw [Prog.interpState]
      refine sure.bind (sure.attempt ((ops o s w h.1).mono fun out w' done => ?_))
      obtain ⟨r, s', rfl, step⟩ := done
      exact ih r (h.2 r w' step)

end Interp

/-- What a safe program gets to, it gets to within the invariant of its protocol. -/
theorem Meets.within {R : Type} [AddCommMonoid R] {G : Protocol M R} {T F : R} {p : Prog S ε α}
    {Q : Except ε α → R → Prop} {ok : M.State → (o : S.Op) → S.Res o → Prop} {o : S.Op}
    (safe : p.Safe G T Q) (inv : G.inv w (T + F)) (meets : p.Meets (M.restrict ok) w o w') :
    p.Meets ((M.restrict ok).within fun w => ∃ T, G.inv w T) w o w' := by
  induction p generalizing w T with
  | ret a => exact meets
  | exit e => exact meets
  | op o' k ih =>
      rcases meets with here | ⟨r, w₁, step, later⟩
      · exact .inl here
      · obtain ⟨T', inv', safe'⟩ := (safe w F inv).2 r w₁ step.1
        exact .inr ⟨r, w₁, ⟨step, ⟨_, inv⟩, _, inv'⟩, ih r safe' inv' later⟩

end Prog
