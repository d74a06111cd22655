import Mathlib.Logic.Relation

/-!
# Programs over a machine

A `Sig` names the atomic operations a thread can ask for and the type of each answer; a `Machine`
gives them a shared state and a step relation (no step means that the operation blocks).  A `Prog`
is the finite tree of operations one thread performs: it returns, leaves early with an exit (an
error code, a panic), or asks for an operation and continues with its answer.

* `Prog.bind`, `Prog.attempt` and `Prog.andFinally` are sequencing, catching every exit, and
  running a finaliser on every way out (what a Rust destructor does).
* `Prog.interp` replaces each operation by a program over another signature, and
  `Prog.interpState` does so while threading a local state, which it also hands back on an exit.
* `Prog.Exec` is the big-step execution of one program alone on a machine, and `Prog.wp` what holds
  after every such execution.
-/

namespace Prog

/-- The atomic operations and their answers. -/
structure Sig where
  Op : Type
  Res : Op → Type

/-- A shared state and what each operation can do to it. -/
structure Machine (S : Sig) where
  State : Type
  step : (o : S.Op) → State → S.Res o → State → Prop

/-- The machine without the steps whose answer is `bad`. -/
def Machine.without {S : Sig} (M : Machine S) (bad : (o : S.Op) → S.Res o → Prop) : Machine S :=
  ⟨M.State, fun o w r w' => M.step o w r w' ∧ ¬bad o r⟩

end Prog

open Prog

/-- What one thread does: return, exit, or perform an operation and go on. -/
inductive Prog (S : Sig) (ε α : Type) : Type
  | ret (a : α)
  | exit (e : ε)
  | op (o : S.Op) (k : S.Res o → Prog S ε α)

namespace Prog

variable {S S' : Sig} {ε ε' α β γ σ : Type}

/-! ## Sequencing -/

protected def bind : Prog S ε α → (α → Prog S ε β) → Prog S ε β
  | .ret a, f => f a
  | .exit e, _ => .exit e
  | .op o k, f => .op o fun r => (k r).bind f

instance : Monad (Prog S ε) where
  pure := .ret
  bind := Prog.bind

@[simp] theorem pure_eq (a : α) : (pure a : Prog S ε α) = .ret a := rfl

@[simp] theorem ret_bind (a : α) (f : α → Prog S ε β) : (Prog.ret a >>= f) = f a := rfl

@[simp] theorem exit_bind (e : ε) (f : α → Prog S ε β) :
    ((Prog.exit e : Prog S ε α) >>= f) = .exit e := rfl

@[simp] theorem op_bind (o : S.Op) (k : S.Res o → Prog S ε α) (f : α → Prog S ε β) :
    (Prog.op o k >>= f) = .op o fun r => k r >>= f := rfl

theorem bind_assoc (p : Prog S ε α) (f : α → Prog S ε β) (g : β → Prog S ε γ) :
    (p >>= f) >>= g = p >>= fun a => f a >>= g := by
  induction p with
  | ret a => rfl
  | exit e => rfl
  | op o k ih => exact congrArg (Prog.op o) (funext ih)

/-- Perform one operation and return its answer. -/
def perform (o : S.Op) : Prog S ε (S.Res o) := .op o .ret

/-- Run to the end and return how the program ended. -/
def attempt : Prog S ε α → Prog S ε' (Except ε α)
  | .ret a => .ret (.ok a)
  | .exit e => .ret (.error e)
  | .op o k => .op o fun r => (k r).attempt

/-- Leave the way `out` says. -/
def leave : Except ε α → Prog S ε α
  | .ok a => .ret a
  | .error e => .exit e

/-- The same program with its exits renamed. -/
def mapExit (f : ε → ε') : Prog S ε α → Prog S ε' α
  | .ret a => .ret a
  | .exit e => .exit (f e)
  | .op o k => .op o fun r => (k r).mapExit f

/-- Run `p`, then the finaliser `fin` however `p` ended, then leave as `p` did. -/
def andFinally (p : Prog S ε α) (fin : Prog S ε Unit) : Prog S ε α :=
  p.attempt >>= fun out => fin >>= fun _ => leave out

/-- Replace each operation by a program over another signature. -/
def interp (h : (o : S.Op) → Prog S' ε (S.Res o)) : Prog S ε α → Prog S' ε α
  | .ret a => .ret a
  | .exit e => .exit e
  | .op o k => h o >>= fun r => (k r).interp h

/-- Replace each operation by a program over another signature that also updates a local state.  The
local state comes back on every way out. -/
def interpState (h : (o : S.Op) → σ → Prog S' ε (S.Res o × σ)) :
    Prog S ε α → σ → Prog S' ε (Except ε α × σ)
  | .ret a, s => .ret (.ok a, s)
  | .exit e, s => .ret (.error e, s)
  | .op o k, s => (h o s).attempt >>= fun
    | .ok (r, s') => (k r).interpState h s'
    | .error e => .ret (.error e, s)

/-! ## Executing one program alone -/

section Exec

variable {M : Machine S} {w w' : M.State}

/-- Big-step execution from `w` to `w'` with the way out `out`. -/
def Exec (M : Machine S) : Prog S ε α → M.State → Except ε α → M.State → Prop
  | .ret a, w, out, w' => out = .ok a ∧ w' = w
  | .exit e, w, out, w' => out = .error e ∧ w' = w
  | .op o k, w, out, w' => ∃ r w₁, M.step o w r w₁ ∧ (k r).Exec M w₁ out w'

/-- What holds after every execution. -/
def wp (M : Machine S) : Prog S ε α → (Except ε α → M.State → Prop) → M.State → Prop
  | .ret a, Q, w => Q (.ok a) w
  | .exit e, Q, w => Q (.error e) w
  | .op o k, Q, w => ∀ r w', M.step o w r w' → (k r).wp M Q w'

theorem wp.exec {p : Prog S ε α} {Q : Except ε α → M.State → Prop} {out : Except ε α}
    (h : p.wp M Q w) (run : p.Exec M w out w') : Q out w' := by
  induction p generalizing w with
  | ret a => obtain ⟨rfl, rfl⟩ := run; exact h
  | exit e => obtain ⟨rfl, rfl⟩ := run; exact h
  | op o k ih =>
      obtain ⟨r, w₁, step, rest⟩ := run
      exact ih r (h r w₁ step) rest

theorem wp.mono {p : Prog S ε α} {Q Q' : Except ε α → M.State → Prop} (h : p.wp M Q w)
    (hQ : ∀ out w', Q out w' → Q' out w') : p.wp M Q' w := by
  induction p generalizing w with
  | ret a => exact hQ _ _ h
  | exit e => exact hQ _ _ h
  | op o k ih => exact fun r w' step => ih r (h r w' step)

theorem wp.and {p : Prog S ε α} {Q Q' : Except ε α → M.State → Prop} (h : p.wp M Q w)
    (h' : p.wp M Q' w) : p.wp M (fun out w' => Q out w' ∧ Q' out w') w := by
  induction p generalizing w with
  | ret a => exact ⟨h, h'⟩
  | exit e => exact ⟨h, h'⟩
  | op o k ih => exact fun r w' step => ih r (h r w' step) (h' r w' step)

theorem wp.bind {p : Prog S ε α} {f : α → Prog S ε β} {Q : Except ε β → M.State → Prop}
    (h : p.wp M (fun out w' =>
      match out with
      | .ok a => (f a).wp M Q w'
      | .error e => Q (.error e) w') w) :
    (p >>= f).wp M Q w := by
  induction p generalizing w with
  | ret a => exact h
  | exit e => exact h
  | op o k ih => exact fun r w' step => ih r (h r w' step)

theorem wp.attempt {p : Prog S ε α} {Q : Except ε' (Except ε α) → M.State → Prop}
    (h : p.wp M (fun out w' => Q (.ok out) w') w) :
    (Prog.attempt p : Prog S ε' (Except ε α)).wp M Q w := by
  induction p generalizing w with
  | ret a => exact h
  | exit e => exact h
  | op o k ih => exact fun r w' step => ih r (h r w' step)

theorem wp.leave {out : Except ε α} {Q : Except ε α → M.State → Prop} (h : Q out w) :
    (Prog.leave out : Prog S ε α).wp M Q w := by
  cases out with
  | ok a => exact h
  | error e => exact h

/-- A finaliser that cannot itself exit runs on every way out. -/
theorem wp.andFinally {p : Prog S ε α} {fin : Prog S ε Unit} {Q : Except ε α → M.State → Prop}
    (h : p.wp M (fun out w' => fin.wp M (fun ended w'' => ended = .ok () ∧ Q out w'') w') w) :
    (p.andFinally fin).wp M Q w := by
  refine wp.bind (wp.attempt (h.mono fun out w' hfin => ?_))
  refine wp.bind (hfin.mono fun ended w'' hended => ?_)
  obtain ⟨rfl, done⟩ := hended
  exact wp.leave done

/-- How a sequence ran: its first part to the end and then the rest, or only the first part. -/
theorem Exec.bind_inv {p : Prog S ε α} {f : α → Prog S ε β} {out : Except ε β}
    (run : (p >>= f).Exec M w out w') :
    (∃ a w₁, p.Exec M w (.ok a) w₁ ∧ (f a).Exec M w₁ out w') ∨
      ∃ e, out = .error e ∧ p.Exec M w (.error e) w' := by
  induction p generalizing w with
  | ret a => exact .inl ⟨a, w, ⟨rfl, rfl⟩, run⟩
  | exit e =>
      obtain ⟨rfl, rfl⟩ := run
      exact .inr ⟨e, rfl, rfl, rfl⟩
  | op o k ih =>
      obtain ⟨r, w₁, step, rest⟩ := run
      rcases ih r rest with ⟨a, w₂, first, last⟩ | ⟨e, rfl, first⟩
      · exact .inl ⟨a, w₂, ⟨r, w₁, step, first⟩, last⟩
      · exact .inr ⟨e, rfl, r, w₁, step, first⟩

theorem Exec.attempt_inv {p : Prog S ε α} {out : Except ε' (Except ε α)}
    (run : (Prog.attempt p : Prog S ε' (Except ε α)).Exec M w out w') :
    ∃ ended, out = .ok ended ∧ p.Exec M w ended w' := by
  induction p generalizing w with
  | ret a =>
      obtain ⟨rfl, rfl⟩ := run
      exact ⟨.ok a, rfl, rfl, rfl⟩
  | exit e =>
      obtain ⟨rfl, rfl⟩ := run
      exact ⟨.error e, rfl, rfl, rfl⟩
  | op o k ih =>
      obtain ⟨r, w₁, step, rest⟩ := run
      obtain ⟨ended, rfl, run⟩ := ih r rest
      exact ⟨ended, rfl, r, w₁, step, run⟩

theorem Exec.leave_inv {ended out : Except ε α} (run : (Prog.leave ended).Exec M w out w') :
    out = ended ∧ w' = w := by
  cases ended with
  | ok a => exact run
  | error e => exact run

theorem Exec.mapExit_inv {f : ε → ε'} {p : Prog S ε α} {out : Except ε' α}
    (run : (p.mapExit f).Exec M w out w') : ∃ ended, out = ended.mapError f ∧ p.Exec M w ended w' := by
  induction p generalizing w with
  | ret a =>
      obtain ⟨rfl, rfl⟩ := run
      exact ⟨.ok a, rfl, rfl, rfl⟩
  | exit e =>
      obtain ⟨rfl, rfl⟩ := run
      exact ⟨.error e, rfl, rfl, rfl⟩
  | op o k ih =>
      obtain ⟨r, w₁, step, rest⟩ := run
      obtain ⟨ended, rfl, run⟩ := ih r rest
      exact ⟨ended, rfl, r, w₁, step, run⟩

/-- A finaliser of one operation ran after the body, and the body's way out is the way out. -/
theorem Exec.finally_inv {p : Prog S ε α} {o : S.Op} {unit : S.Res o → Unit} {out : Except ε α}
    (run : (p.andFinally (.op o fun r => .ret (unit r))).Exec M w out w') :
    ∃ r w₁, p.Exec M w out w₁ ∧ M.step o w₁ r w' := by
  rcases run.bind_inv with ⟨ended, w₁, first, rest⟩ | ⟨e, -, first⟩
  · obtain ⟨ended, eq, body⟩ := first.attempt_inv
    cases eq
    obtain ⟨r, w₂, step, rest⟩ := rest
    obtain ⟨rfl, rfl⟩ := Exec.leave_inv rest
    exact ⟨r, w₁, body, step⟩
  · obtain ⟨ended, eq, -⟩ := first.attempt_inv
    cases eq

theorem Exec.of_without {bad : (o : S.Op) → S.Res o → Prop} {p : Prog S ε α}
    {out : Except ε α} (run : p.Exec (M.without bad) w out w') : p.Exec M w out w' := by
  induction p generalizing w with
  | ret a => exact run
  | exit e => exact run
  | op o k ih =>
      obtain ⟨r, w₁, step, rest⟩ := run
      exact ⟨r, w₁, step.1, ih r rest⟩

/-! ## Running a program -/

/-- Run a program with an operation that computes. -/
def play {W : Type} (f : (o : S.Op) → W → Option (S.Res o × W)) :
    Prog S ε α → W → Option (Except ε α × W)
  | .ret a, w => some (.ok a, w)
  | .exit e, w => some (.error e, w)
  | .op o k, w =>
    match f o w with
    | some (r, w') => (k r).play f w'
    | none => none

theorem play_exec {f : (o : S.Op) → M.State → Option (S.Res o × M.State)}
    (sound : ∀ o w r w', f o w = some (r, w') → M.step o w r w') {p : Prog S ε α}
    {out : Except ε α} (run : p.play f w = some (out, w')) : p.Exec M w out w' := by
  induction p generalizing w with
  | ret a => cases run; exact ⟨rfl, rfl⟩
  | exit e => cases run; exact ⟨rfl, rfl⟩
  | op o k ih =>
      rw [play] at run
      split at run
      · rename_i r w₁ step
        exact ⟨r, w₁, sound o w r w₁ step, ih r run⟩
      · cases run

theorem play_bind {W : Type} (f : (o : S.Op) → W → Option (S.Res o × W)) (p : Prog S ε α)
    (g : α → Prog S ε β) (w : W) : (p >>= g).play f w = (p.play f w).bind fun
      | (.ok a, w') => (g a).play f w'
      | (.error e, w') => some (.error e, w') := by
  induction p generalizing w with
  | ret a => rfl
  | exit e => rfl
  | op o k ih =>
      rw [op_bind, play, play]
      cases f o w with
      | none => rfl
      | some rw => exact ih rw.1 rw.2

theorem play_attempt {W : Type} (f : (o : S.Op) → W → Option (S.Res o × W)) (p : Prog S ε α)
    (w : W) : (p.attempt : Prog S ε' (Except ε α)).play f w =
      (p.play f w).map fun r => (.ok r.1, r.2) := by
  induction p generalizing w with
  | ret a => rfl
  | exit e => rfl
  | op o k ih =>
      rw [Prog.attempt, play, play]
      cases f o w with
      | none => rfl
      | some rw => exact ih rw.1 rw.2

/-! ## What a program returns -/

/-- Every result has `Q`, from whatever state the program starts. -/
def Yields (M : Machine S) (p : Prog S ε α) (Q : α → Prop) : Prop :=
  ∀ w, p.wp M (fun out _ => ∀ a, out = .ok a → Q a) w

theorem yields_true (p : Prog S ε α) : p.Yields M fun _ => True := by
  intro w
  induction p generalizing w with
  | ret a => exact fun _ _ => trivial
  | exit e => exact fun _ _ => trivial
  | op o k ih => exact fun r w' _ => ih r w'

theorem Yields.bind {p : Prog S ε α} {f : α → Prog S ε β} {P : α → Prop} {Q : β → Prop}
    (first : p.Yields M P) (second : ∀ a, P a → (f a).Yields M Q) : (p >>= f).Yields M Q := by
  refine fun w => wp.bind ((first w).mono fun out w' h => ?_)
  cases out with
  | ok a => exact second a (h a rfl) w'
  | error e => exact fun a ok => nomatch ok

theorem Yields.andFinally {p : Prog S ε α} {fin : Prog S ε Unit} {Q : α → Prop}
    (h : p.Yields M Q) : (p.andFinally fin).Yields M Q := by
  refine fun w => wp.bind (wp.attempt ((h w).mono fun out w' done => ?_))
  refine wp.bind ((yields_true fin w').mono fun ended w'' _ => ?_)
  cases ended with
  | ok u => exact wp.leave done
  | error e => exact fun a ok => nomatch ok

/-- An invariant of the local state that every operation's program keeps. -/
theorem Yields.interpState {p : Prog S' ε α} {h : (o : S'.Op) → σ → Prog S ε (S'.Res o × σ)}
    {J : σ → Prop} (ops : ∀ o s, J s → (h o s).Yields M fun r => J r.2) {s : σ} (start : J s) :
    (p.interpState h s).Yields M fun r => J r.2 := by
  intro w
  induction p generalizing s w with
  | ret a =>
      intro r ok
      cases ok
      exact start
  | exit e =>
      intro r ok
      cases ok
      exact start
  | op o k ih =>
      rw [Prog.interpState]
      refine wp.bind (wp.attempt ((ops o s start w).mono fun out w' done => ?_))
      cases out with
      | ok r => exact ih r.1 (done r rfl) w'
      | error e =>
          intro r ok
          cases ok
          exact start

end Exec

/-! ## The operations of one thread in turn -/

/-- What a thread has done: operations with their answers, oldest first. -/
abbrev Past (S : Sig) := List ((o : S.Op) × S.Res o)

/-- After the past `h` the program goes on as `p'`. -/
inductive After : Prog S ε α → Past S → Prog S ε α → Prop
  | here {p : Prog S ε α} : After p [] p
  | op {o : S.Op} {k : S.Res o → Prog S ε α} {r : S.Res o} {h : Past S} {p' : Prog S ε α} :
    After (k r) h p' → After (.op o k) (⟨o, r⟩ :: h) p'

theorem After.snoc {p : Prog S ε α} {h : Past S} {o : S.Op} {k : S.Res o → Prog S ε α}
    (after : After p h (.op o k)) (r : S.Res o) : After p (h ++ [⟨o, r⟩]) (k r) := by
  generalize eq : Prog.op o k = p' at after
  induction after with
  | here => subst eq; exact .op .here
  | op _ ih => exact .op (ih eq)

/-- What is left to do before the way out. -/
theorem After.op_inv {o : S.Op} {k : S.Res o → Prog S ε α} {h : Past S} {out : Except ε α}
    (after : After (.op o k) h (leave out)) :
    ∃ r h', h = ⟨o, r⟩ :: h' ∧ After (k r) h' (leave out) := by
  generalize eq : leave out = p' at after
  cases after with
  | here => cases out <;> cases eq
  | op rest => exact ⟨_, _, rfl, rest⟩

theorem After.ret_inv {a : α} {h : Past S} {out : Except ε α}
    (after : After (.ret a) h (leave out)) : h = [] ∧ out = .ok a := by
  generalize eq : leave out = p' at after
  cases after with
  | here =>
      cases out with
      | ok b => cases eq; exact ⟨rfl, rfl⟩
      | error e => cases eq

theorem After.exit_inv {e : ε} {h : Past S} {out : Except ε α}
    (after : After (.exit e) h (leave out)) : h = [] ∧ out = .error e := by
  generalize eq : leave out = p' at after
  cases after with
  | here =>
      cases out with
      | ok b => cases eq
      | error e => cases eq; exact ⟨rfl, rfl⟩

theorem After.bind_inv {p : Prog S ε α} {f : α → Prog S ε β} {h : Past S} {out : Except ε β}
    (after : After (p >>= f) h (leave out)) :
    (∃ a h₁ h₂, h = h₁ ++ h₂ ∧ After p h₁ (leave (.ok a)) ∧ After (f a) h₂ (leave out)) ∨
      ∃ e, out = .error e ∧ After p h (leave (.error e)) := by
  induction p generalizing h with
  | ret a => exact .inl ⟨a, [], h, rfl, .here, after⟩
  | exit e =>
      obtain ⟨rfl, rfl⟩ := After.exit_inv after
      exact .inr ⟨e, rfl, .here⟩
  | op o k ih =>
      obtain ⟨r, h, rfl, rest⟩ := After.op_inv after
      rcases ih r rest with ⟨a, h₁, h₂, rfl, first, last⟩ | ⟨e, rfl, first⟩
      · exact .inl ⟨a, _ :: h₁, h₂, rfl, .op first, last⟩
      · exact .inr ⟨e, rfl, .op first⟩

/-- Past its first part, a sequence goes on as the rest does. -/
theorem After.of_bind {p : Prog S ε α} {f : α → Prog S ε β} {h h' : Past S} {a : α}
    {p' : Prog S ε β} (first : After p h (.ret a)) (after : After (p >>= f) (h ++ h') p') :
    After (f a) h' p' := by
  generalize eq : Prog.ret a = last at first
  induction first with
  | here =>
      subst eq
      exact after
  | op _ ih =>
      cases after with
      | op rest => exact ih rest eq

theorem After.append {p p₁ p₂ : Prog S ε α} {h h' : Past S} (first : After p h p₁)
    (rest : After p₁ h' p₂) : After p (h ++ h') p₂ := by
  induction first with
  | here => exact rest
  | op _ ih => exact .op (ih rest)

/-- The past determines how a program goes on. -/
theorem After.unique {p p₁ p₂ : Prog S ε α} {h : Past S} (after₁ : After p h p₁)
    (after₂ : After p h p₂) : p₁ = p₂ := by
  induction after₁ with
  | here =>
      cases after₂ with
      | here => rfl
  | op _ ih =>
      cases after₂ with
      | op rest => exact ih rest

/-- Before every operation `φ` holds of the past and the operation, and at the end `ψ` of the past
and the way out, whatever the answers are. -/
def Obeys (φ : Past S → S.Op → Prop) (ψ : Past S → Except ε α → Prop) : Prog S ε α → Past S → Prop
  | .ret a, h => ψ h (.ok a)
  | .exit e, h => ψ h (.error e)
  | .op o k, h => φ h o ∧ ∀ r, (k r).Obeys φ ψ (h ++ [⟨o, r⟩])

section Obeys

variable {φ : Past S → S.Op → Prop} {ψ ψ' : Past S → Except ε α → Prop} {p : Prog S ε α}
  {h : Past S}

theorem Obeys.mono (obeys : p.Obeys φ ψ h) (imp : ∀ h out, ψ h out → ψ' h out) :
    p.Obeys φ ψ' h := by
  induction p generalizing h with
  | ret a => exact imp _ _ obeys
  | exit e => exact imp _ _ obeys
  | op o k ih => exact ⟨obeys.1, fun r => ih r (obeys.2 r)⟩

theorem Obeys.bind {f : α → Prog S ε β} {ψ : Past S → Except ε β → Prop}
    (obeys : p.Obeys φ (fun h out =>
      match out with
      | .ok a => (f a).Obeys φ ψ h
      | .error e => ψ h (.error e)) h) :
    (p >>= f).Obeys φ ψ h := by
  induction p generalizing h with
  | ret a => exact obeys
  | exit e => exact obeys
  | op o k ih => exact ⟨obeys.1, fun r => ih r (obeys.2 r)⟩

theorem Obeys.attempt {ψ : Past S → Except ε' (Except ε α) → Prop}
    (obeys : p.Obeys φ (fun h out => ψ h (.ok out)) h) :
    (Prog.attempt p : Prog S ε' (Except ε α)).Obeys φ ψ h := by
  induction p generalizing h with
  | ret a => exact obeys
  | exit e => exact obeys
  | op o k ih => exact ⟨obeys.1, fun r => ih r (obeys.2 r)⟩

theorem Obeys.leave {out : Except ε α} (done : ψ h out) :
    (Prog.leave out : Prog S ε α).Obeys φ ψ h := by
  cases out with
  | ok a => exact done
  | error e => exact done

theorem Obeys.andFinally {fin : Prog S ε Unit}
    (obeys : p.Obeys φ (fun h out => fin.Obeys φ (fun h' ended =>
      ended = .ok () ∧ ψ h' out) h) h) : (p.andFinally fin).Obeys φ ψ h := by
  refine Obeys.bind (Obeys.attempt (obeys.mono fun h out fin => ?_))
  refine Obeys.bind (fin.mono fun h' ended done => ?_)
  obtain ⟨rfl, done⟩ := done
  exact Obeys.leave done

theorem Obeys.mapExit {f : ε → ε'} {ψ : Past S → Except ε' α → Prop}
    (obeys : p.Obeys φ (fun h out => ψ h (out.mapError f)) h) : (p.mapExit f).Obeys φ ψ h := by
  induction p generalizing h with
  | ret a => exact obeys
  | exit e => exact obeys
  | op o k ih => exact ⟨obeys.1, fun r => ih r (obeys.2 r)⟩

theorem Obeys.after {p' : Prog S ε α} {h' : Past S} (obeys : p.Obeys φ ψ h)
    (after : After p h' p') : p'.Obeys φ ψ (h ++ h') := by
  induction after generalizing h with
  | here => rwa [List.append_nil]
  | @op o k r h' p' _ ih =>
      rw [List.append_cons]
      exact ih (obeys.2 r)

/-- The past only grows. -/
theorem Obeys.grows (obeys : p.Obeys φ ψ h) :
    p.Obeys φ (fun h' out => ψ h' out ∧ h <+: h') h := by
  induction p generalizing h with
  | ret a => exact ⟨obeys, List.prefix_rfl⟩
  | exit e => exact ⟨obeys, List.prefix_rfl⟩
  | op o k ih =>
      refine ⟨obeys.1, fun r => (ih r (obeys.2 r)).mono fun h' out done => ⟨done.1, ?_⟩⟩
      exact (List.prefix_append h _).trans done.2

/-! ### Rules kept whatever the past -/

/-- Every operation meets `φ`, whatever the past is. -/
def Keeps (φ : Past S → S.Op → Prop) (p : Prog S ε α) : Prop :=
  ∀ h, p.Obeys φ (fun _ _ => True) h

theorem Keeps.any (p : Prog S ε α) : p.Keeps fun _ _ => True := by
  intro h
  induction p generalizing h with
  | ret a => trivial
  | exit e => trivial
  | op o k ih => exact ⟨trivial, fun r => ih r _⟩

theorem Keeps.ret {a : α} : (Prog.ret a : Prog S ε α).Keeps φ := fun _ => trivial

theorem Keeps.exit {e : ε} : (Prog.exit e : Prog S ε α).Keeps φ := fun _ => trivial

theorem Keeps.op {o : S.Op} {k : S.Res o → Prog S ε α} (rule : ∀ h, φ h o)
    (rest : ∀ r, (k r).Keeps φ) : (Prog.op o k).Keeps φ := fun h => ⟨rule h, fun r => rest r _⟩

theorem Keeps.bind {f : α → Prog S ε β} (first : p.Keeps φ) (rest : ∀ a, (f a).Keeps φ) :
    (p >>= f).Keeps φ := by
  refine fun h => Obeys.bind ((first h).mono fun h' out _ => ?_)
  cases out with
  | ok a => exact rest a h'
  | error e => trivial

theorem Keeps.attempt (keeps : p.Keeps φ) : (p.attempt : Prog S ε' (Except ε α)).Keeps φ :=
  fun h => Obeys.attempt (keeps h)

theorem Keeps.leave {out : Except ε α} : (Prog.leave out : Prog S ε α).Keeps φ :=
  fun _ => Obeys.leave trivial

theorem Keeps.andFinally {fin : Prog S ε Unit} (keeps : p.Keeps φ) (ends : fin.Keeps φ) :
    (p.andFinally fin).Keeps φ :=
  keeps.attempt.bind fun _ => ends.bind fun _ => Keeps.leave

theorem Keeps.mapExit {f : ε → ε'} (keeps : p.Keeps φ) : (p.mapExit f).Keeps φ :=
  fun h => Obeys.mapExit (keeps h)

theorem Keeps.interp {p : Prog S' ε α} {f : (o : S'.Op) → Prog S ε (S'.Res o)}
    (ops : ∀ o, (f o).Keeps φ) : (p.interp f).Keeps φ := by
  induction p with
  | ret a => exact .ret
  | exit e => exact .exit
  | op o k ih => exact (ops o).bind ih

theorem Keeps.interpState {p : Prog S' ε α} {f : (o : S'.Op) → σ → Prog S ε (S'.Res o × σ)}
    (ops : ∀ o s, (f o s).Keeps φ) (s : σ) : (p.interpState f s).Keeps φ := by
  induction p generalizing s with
  | ret a => exact .ret
  | exit e => exact .ret
  | op o k ih =>
      rw [Prog.interpState]
      refine (ops o s).attempt.bind fun out => ?_
      cases out with
      | ok rs => exact ih rs.1 rs.2
      | error e => exact .ret

end Obeys

/-! ## Programs that report what they did -/

/-- The same program, which also returns its past, or leaves with it. -/
def traced : Prog S ε α → Past S → Prog S (ε × Past S) (α × Past S)
  | .ret a, h => .ret (a, h)
  | .exit e, h => .exit (e, h)
  | .op o k, h => .op o fun r => (k r).traced (h ++ [⟨o, r⟩])

/-- How a traced program ended. -/
def ended : Except (ε × Past S) (α × Past S) → Except ε α
  | .ok (a, _) => .ok a
  | .error (e, _) => .error e

/-- What it had done by then. -/
def whole : Except (ε × Past S) (α × Past S) → Past S
  | .ok (_, h) => h
  | .error (_, h) => h

end Prog
