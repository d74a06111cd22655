import Mathlib.Algebra.Group.Basic
import TypedFuse.Lib.Prog

/-!
# Ghost resources for programs that share a machine

A `Protocol` is an invariant of the shared state that also counts *resources*: what the threads
hold between them (leases, tickets, open debts), as elements of a commutative monoid.  A program is
`Safe` from a resource if each of its operations, started by a thread holding that resource beside
any frame the other threads hold, meets its guard, keeps the invariant and leaves the frame alone.

Because the frame is arbitrary, a safe program is safe under every interleaving
(`TypedFuse/Lib/Pool.lean`), and run alone it keeps the invariant (`Safe.exec`).
-/

namespace Prog

variable {S S' : Sig} {M : Machine S} {R ε ε' α β σ : Type}

/-- An invariant over the state and the resources in circulation, and what each operation may
rely on when it starts. -/
structure Protocol (M : Machine S) (R : Type) where
  inv : M.State → R → Prop
  guard : S.Op → M.State → Prop

variable [AddCommMonoid R] {G : Protocol M R}

/-- From the resource `T` the program keeps the protocol and ends in `Q`. -/
def Safe (G : Protocol M R) : Prog S ε α → R → (Except ε α → R → Prop) → Prop
  | .ret a, T, Q => Q (.ok a) T
  | .exit e, T, Q => Q (.error e) T
  | .op o k, T, Q => ∀ w F, G.inv w (T + F) → G.guard o w ∧
      ∀ r w', M.step o w r w' → ∃ T', G.inv w' (T' + F) ∧ (k r).Safe G T' Q

variable {p : Prog S ε α} {T T' F : R} {Q Q' : Except ε α → R → Prop}

theorem Safe.mono (h : p.Safe G T Q) (hQ : ∀ out T', Q out T' → Q' out T') : p.Safe G T Q' := by
  induction p generalizing T with
  | ret a => exact hQ _ _ h
  | exit e => exact hQ _ _ h
  | op o k ih =>
      intro w F inv
      obtain ⟨guard, steps⟩ := h w F inv
      refine ⟨guard, fun r w' step => ?_⟩
      obtain ⟨T', inv', rest⟩ := steps r w' step
      exact ⟨T', inv', ih r rest⟩

theorem Safe.bind {f : α → Prog S ε β} {Q : Except ε β → R → Prop}
    (h : p.Safe G T fun out T' =>
      match out with
      | .ok a => (f a).Safe G T' Q
      | .error e => Q (.error e) T') :
    (p >>= f).Safe G T Q := by
  induction p generalizing T with
  | ret a => exact h
  | exit e => exact h
  | op o k ih =>
      intro w F inv
      obtain ⟨guard, steps⟩ := h w F inv
      refine ⟨guard, fun r w' step => ?_⟩
      obtain ⟨T', inv', rest⟩ := steps r w' step
      exact ⟨T', inv', ih r rest⟩

theorem Safe.mapExit {f : ε → ε'} {Q : Except ε' α → R → Prop}
    (h : p.Safe G T fun out T' => Q (out.mapError f) T') : (p.mapExit f).Safe G T Q := by
  induction p generalizing T with
  | ret a => exact h
  | exit e => exact h
  | op o k ih =>
      intro w F inv
      obtain ⟨guard, steps⟩ := h w F inv
      refine ⟨guard, fun r w' step => ?_⟩
      obtain ⟨T', inv', rest⟩ := steps r w' step
      exact ⟨T', inv', ih r rest⟩

theorem Safe.attempt {Q : Except ε' (Except ε α) → R → Prop}
    (h : p.Safe G T fun out T' => Q (.ok out) T') :
    (Prog.attempt p : Prog S ε' (Except ε α)).Safe G T Q := by
  induction p generalizing T with
  | ret a => exact h
  | exit e => exact h
  | op o k ih =>
      intro w F inv
      obtain ⟨guard, steps⟩ := h w F inv
      refine ⟨guard, fun r w' step => ?_⟩
      obtain ⟨T', inv', rest⟩ := steps r w' step
      exact ⟨T', inv', ih r rest⟩

theorem Safe.leave {out : Except ε α} (h : Q out T) :
    (Prog.leave out : Prog S ε α).Safe G T Q := by
  cases out with
  | ok a => exact h
  | error e => exact h

/-- A finaliser that cannot itself exit runs on every way out. -/
theorem Safe.andFinally {fin : Prog S ε Unit}
    (h : p.Safe G T fun out T' => fin.Safe G T' fun ended T'' => ended = .ok () ∧ Q out T'') :
    (p.andFinally fin).Safe G T Q := by
  refine Safe.bind (Safe.attempt (h.mono fun out T' hfin => ?_))
  refine Safe.bind (hfin.mono fun ended T'' hended => ?_)
  obtain ⟨rfl, done⟩ := hended
  exact Safe.leave done

/-- What the program does not hold, it leaves alone. -/
theorem Safe.frame (h : p.Safe G T Q) (K : R) :
    p.Safe G (T + K) fun out T' => ∃ T₀, T' = T₀ + K ∧ Q out T₀ := by
  induction p generalizing T with
  | ret a => exact ⟨T, rfl, h⟩
  | exit e => exact ⟨T, rfl, h⟩
  | op o k ih =>
      intro w F inv
      rw [add_assoc] at inv
      obtain ⟨guard, steps⟩ := h w (K + F) inv
      refine ⟨guard, fun r w' step => ?_⟩
      obtain ⟨T', inv', rest⟩ := steps r w' step
      rw [← add_assoc] at inv'
      exact ⟨T' + K, inv', ih r rest⟩

/-- Sequencing where the first program needs only part of what is held. -/
theorem Safe.seq {f : α → Prog S ε β} {K : R} {Q : Except ε β → R → Prop} (h : p.Safe G T Q')
    (rest : ∀ out T', Q' out T' →
      match out with
      | .ok a => (f a).Safe G (T' + K) Q
      | .error e => Q (.error e) (T' + K)) :
    (p >>= f).Safe G (T + K) Q := by
  refine Safe.bind ((h.frame K).mono fun out T' hout => ?_)
  obtain ⟨T₀, rfl, done⟩ := hout
  exact rest out T₀ done

/-- Operations replaced by programs that hold nothing afterwards beyond what they held before. -/
theorem Safe.interp {p : Prog S' ε α} {h : (o : S'.Op) → Prog S ε (S'.Res o)} {T : R}
    (ops : ∀ o, (h o).Safe G T fun _ T' => T' = T) :
    (p.interp h).Safe G T fun _ T' => T' = T := by
  induction p with
  | ret a => rfl
  | exit e => rfl
  | op o k ih =>
      refine Safe.bind ((ops o).mono fun out T' hT => ?_)
      subst hT
      cases out with
      | ok r => exact ih r
      | error e => rfl

/-- The same with a local state: what the thread holds is a function of that state. -/
theorem Safe.interpState {p : Prog S' ε α} {h : (o : S'.Op) → σ → Prog S ε (S'.Res o × σ)}
    (held : σ → R)
    (ops : ∀ o s, (h o s).Safe G (held s) fun out T' =>
      match out with
      | .ok (_, s') => T' = held s'
      | .error _ => T' = held s)
    (s : σ) :
    (p.interpState h s).Safe G (held s) fun out T' => ∃ out' s', out = .ok (out', s') ∧
      T' = held s' := by
  induction p generalizing s with
  | ret a => exact ⟨_, s, rfl, rfl⟩
  | exit e => exact ⟨_, s, rfl, rfl⟩
  | op o k ih =>
      rw [Prog.interpState]
      refine Safe.bind (Safe.attempt ((ops o s).mono fun out T' hT => ?_))
      cases out with
      | ok rs => obtain ⟨r, s'⟩ := rs; subst hT; exact ih r s'
      | error e => subst hT; exact ⟨_, s, rfl, rfl⟩

/-- A program that reports what it did is as safe, and its report begins with the past it was
given. -/
theorem Safe.traced (h : p.Safe G T Q) (past : Past S) :
    (p.traced past).Safe G T fun out T' => Q (ended out) T' ∧ past <+: whole out := by
  induction p generalizing T past with
  | ret a => exact ⟨h, List.prefix_rfl⟩
  | exit e => exact ⟨h, List.prefix_rfl⟩
  | op o k ih =>
      intro w F inv
      obtain ⟨guard, steps⟩ := h w F inv
      refine ⟨guard, fun r w' step => ?_⟩
      obtain ⟨T', inv', rest⟩ := steps r w' step
      refine ⟨T', inv', (ih r rest _).mono fun out T'' done => ⟨done.1, ?_⟩⟩
      exact (List.prefix_append past _).trans done.2

/-! ## What safety gives when the program runs alone -/

theorem Safe.exec {w w' : M.State} {out : Except ε α} (h : p.Safe G T Q)
    (inv : G.inv w (T + F)) (run : p.Exec M w out w') :
    ∃ T', Q out T' ∧ G.inv w' (T' + F) := by
  induction p generalizing T w with
  | ret a => obtain ⟨rfl, rfl⟩ := run; exact ⟨T, h, inv⟩
  | exit e => obtain ⟨rfl, rfl⟩ := run; exact ⟨T, h, inv⟩
  | op o k ih =>
      obtain ⟨r, w₁, step, rest⟩ := run
      obtain ⟨T', inv', safe⟩ := (h w F inv).2 r w₁ step
      exact ih r safe inv' rest

/-- What every step from within the invariant keeps holds of the whole past at the end. -/
theorem Safe.history {J : Past S → M.State → Prop} {w w' : M.State} {past : Past S}
    {out : Except (ε × Past S) (α × Past S)}
    (keep : ∀ {past w T o r w'}, J past w → G.inv w T → M.step o w r w' → J (past ++ [⟨o, r⟩]) w')
    (h : p.Safe G T Q) (inv : G.inv w (T + F)) (run : (p.traced past).Exec M w out w')
    (start : J past w) : J (whole out) w' := by
  induction p generalizing T w past with
  | ret a => obtain ⟨rfl, rfl⟩ := run; exact start
  | exit e => obtain ⟨rfl, rfl⟩ := run; exact start
  | op o k ih =>
      obtain ⟨r, w₁, step, rest⟩ := run
      obtain ⟨T', inv', safe⟩ := (h w F inv).2 r w₁ step
      exact ih r safe inv' rest (keep start inv step)

/-! ## Programs that run alone

What a program does with its holdings when nobody else moves.  Fewer programs are safe than run
well: between two operations of a program alone the state stays as it is. -/

/-- From the resource `T`, run alone, the program keeps the invariant and ends in `Q`. -/
def Runs (G : Protocol M R) (p : Prog S ε α) (T : R) (Q : Except ε α → R → Prop) : Prop :=
  ∀ w F, G.inv w (T + F) → p.wp M (fun out w' => ∃ T', Q out T' ∧ G.inv w' (T' + F)) w

theorem Safe.runs (h : p.Safe G T Q) : p.Runs G T Q := by
  induction p generalizing T with
  | ret a => exact fun w F inv => ⟨T, h, inv⟩
  | exit e => exact fun w F inv => ⟨T, h, inv⟩
  | op o k ih =>
      intro w F inv r w' step
      obtain ⟨T', inv', rest⟩ := (h w F inv).2 r w' step
      exact ih r rest w' F inv'

theorem Runs.ret {a : α} (done : Q (.ok a) T) : (Prog.ret a : Prog S ε α).Runs G T Q :=
  fun _ _ inv => ⟨T, done, inv⟩

theorem Runs.exit {e : ε} (done : Q (.error e) T) : (Prog.exit e : Prog S ε α).Runs G T Q :=
  fun _ _ inv => ⟨T, done, inv⟩

theorem Runs.op {o : S.Op} {k : S.Res o → Prog S ε α}
    (steps : ∀ w F, G.inv w (T + F) → ∀ r w', M.step o w r w' →
      ∃ T', G.inv w' (T' + F) ∧ (k r).Runs G T' Q) : (Prog.op o k).Runs G T Q := by
  intro w F inv r w' step
  obtain ⟨T', inv', rest⟩ := steps w F inv r w' step
  exact rest w' F inv'

theorem Runs.mono (h : p.Runs G T Q) (hQ : ∀ out T', Q out T' → Q' out T') : p.Runs G T Q' :=
  fun w F inv => (h w F inv).mono fun out _ done => by
    obtain ⟨T', done, inv'⟩ := done
    exact ⟨T', hQ out T' done, inv'⟩

theorem Runs.bind {f : α → Prog S ε β} {Q : Except ε β → R → Prop}
    (h : p.Runs G T fun out T' =>
      match out with
      | .ok a => (f a).Runs G T' Q
      | .error e => Q (.error e) T') :
    (p >>= f).Runs G T Q := by
  intro w F inv
  refine wp.bind ((h w F inv).mono fun out w' done => ?_)
  obtain ⟨T', done, inv'⟩ := done
  cases out with
  | ok a => exact done w' F inv'
  | error e => exact ⟨T', done, inv'⟩

theorem Runs.attempt {Q : Except ε' (Except ε α) → R → Prop}
    (h : p.Runs G T fun out T' => Q (.ok out) T') :
    (Prog.attempt p : Prog S ε' (Except ε α)).Runs G T Q :=
  fun w F inv => wp.attempt (h w F inv)

theorem Runs.frame (h : p.Runs G T Q) (K : R) :
    p.Runs G (T + K) fun out T' => ∃ T₀, T' = T₀ + K ∧ Q out T₀ := by
  intro w F inv
  rw [add_assoc] at inv
  refine (h w (K + F) inv).mono fun out w' done => ?_
  obtain ⟨T', done, inv'⟩ := done
  rw [← add_assoc] at inv'
  exact ⟨T' + K, ⟨T', rfl, done⟩, inv'⟩

theorem Runs.andFinally {fin : Prog S ε Unit}
    (h : p.Runs G T fun out T' => fin.Runs G T' fun ended T'' => ended = .ok () ∧ Q out T'') :
    (p.andFinally fin).Runs G T Q := by
  intro w F inv
  refine wp.andFinally ((h w F inv).mono fun out w' done => ?_)
  obtain ⟨T', fin, inv'⟩ := done
  refine (fin w' F inv').mono fun ended w'' done => ?_
  obtain ⟨T'', ⟨ended, done⟩, inv''⟩ := done
  exact ⟨ended, T'', done, inv''⟩

/-- What the program alone never does can be left out. -/
theorem Runs.and {P : Except ε α → Prop} (h : p.Runs G T Q)
    (never : ∀ w, p.wp M (fun out _ => P out) w) :
    p.Runs G T fun out T' => Q out T' ∧ P out := by
  intro w F inv
  refine ((h w F inv).and (never w)).mono fun out w' done => ?_
  obtain ⟨⟨T', done, inv'⟩, also⟩ := done
  exact ⟨T', ⟨done, also⟩, inv'⟩

/-! ## Fewer steps -/

/-- The same protocol on the machine without some steps. -/
def Protocol.without (G : Protocol M R) (bad : (o : S.Op) → S.Res o → Prop) :
    Protocol (M.without bad) R := ⟨G.inv, G.guard⟩

theorem Safe.without {bad : (o : S.Op) → S.Res o → Prop} (h : p.Safe G T Q) :
    p.Safe (G.without bad) T Q := by
  induction p generalizing T with
  | ret a => exact h
  | exit e => exact h
  | op o k ih =>
      intro w F inv
      obtain ⟨guard, steps⟩ := h w F inv
      refine ⟨guard, fun r w' step => ?_⟩
      obtain ⟨T', inv', rest⟩ := steps r w' step.1
      exact ⟨T', inv', ih r rest⟩

end Prog
