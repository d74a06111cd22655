import TypedFuse.Lib.Ghost

/-!
# Interleavings

A `Pool` is a machine state and the threads that share it, each tagged with the request it serves
and in the order they were started.  A `Move` starts a request or lets one thread perform its next
operation, so a `Run` is an interleaving at the granularity of the machine's operations.

`Pool.Ok` says that the threads can share out the resources in circulation such that each is safe
from its share.  Starting a request that is safe from nothing keeps it, and so does every
operation: `Run.ok`.
-/

namespace Prog

/-- The shared state and the threads on it. -/
structure Pool {S : Sig} (M : Machine S) (ε α ρ : Type) where
  state : M.State
  threads : List (ρ × Prog S ε α)

/-- What one move of a pool does. -/
inductive Label (S : Sig) (ρ : Type)
  | start (q : ρ)
  | op (thread : Nat) (o : S.Op) (r : S.Res o)

variable {S : Sig} {M : Machine S} {R ε α ρ : Type} {prog : ρ → Prog S ε α}

/-- Start a request, or perform the next operation of one thread. -/
inductive Move (prog : ρ → Prog S ε α) : Pool M ε α ρ → Label S ρ → Pool M ε α ρ → Prop
  | start (q : ρ) {w : M.State} {ts : List (ρ × Prog S ε α)} :
    Move prog ⟨w, ts⟩ (.start q) ⟨w, ts ++ [(q, prog q)]⟩
  | op {q : ρ} {o : S.Op} {k : S.Res o → Prog S ε α} {w w' : M.State} {r : S.Res o}
      {ts us : List (ρ × Prog S ε α)} :
    M.step o w r w' →
    Move prog ⟨w, ts ++ (q, .op o k) :: us⟩ (.op ts.length o r) ⟨w', ts ++ (q, k r) :: us⟩

/-- A run from `c`, each move of which meets the condition `C` on the pool it starts from. -/
inductive Run (prog : ρ → Prog S ε α) (C : Pool M ε α ρ → Label S ρ → Prop)
    (c : Pool M ε α ρ) : List (Label S ρ) → Pool M ε α ρ → Prop
  | nil : Run prog C c [] c
  | snoc {tr : List (Label S ρ)} {c₁ c₂ : Pool M ε α ρ} {l : Label S ρ} :
    Run prog C c tr c₁ → C c₁ l → Move prog c₁ l c₂ → Run prog C c (tr ++ [l]) c₂

/-! ## Traces -/

/-- The operation of thread `i` in a move. -/
def Label.own (i : Nat) : Label S ρ → Option ((o : S.Op) × S.Res o)
  | .start _ => none
  | .op thread o r => if thread = i then some ⟨o, r⟩ else none

/-- What thread `i` has done in a trace. -/
def ownOps (i : Nat) (tr : List (Label S ρ)) : Past S := tr.filterMap (Label.own i)

theorem ownOps_append (i : Nat) (tr tr' : List (Label S ρ)) :
    ownOps i (tr ++ tr') = ownOps i tr ++ ownOps i tr' := List.filterMap_append

@[simp] theorem ownOps_start (i : Nat) (q : ρ) : ownOps i [(.start q : Label S ρ)] = [] := rfl

@[simp] theorem ownOps_self (i : Nat) (o : S.Op) (r : S.Res o) :
    ownOps i [(.op i o r : Label S ρ)] = [⟨o, r⟩] := by
  simp [ownOps, Label.own]

theorem ownOps_other {i j : Nat} (other : j ≠ i) (o : S.Op) (r : S.Res o) :
    ownOps i [(.op j o r : Label S ρ)] = [] := by
  simp [ownOps, Label.own, other]

theorem mem_ownOps {i : Nat} {tr : List (Label S ρ)} {o : S.Op} {r : S.Res o} :
    ⟨o, r⟩ ∈ ownOps i tr ↔ .op i o r ∈ tr := by
  constructor
  · intro mem
    obtain ⟨l, mem, own⟩ := List.mem_filterMap.mp mem
    cases l with
    | start q => cases own
    | op j o' r' =>
        simp only [Label.own] at own
        split at own
        · rename_i same
          cases own
          exact same ▸ mem
        · cases own
  · intro mem
    exact List.mem_filterMap.mpr ⟨_, mem, by simp [Label.own]⟩

/-- Where in a trace an operation of thread `i` stands. -/
theorem ownOps_split {i : Nat} {tr : List (Label S ρ)} {h h' : Past S} {o : S.Op} {r : S.Res o}
    (own : ownOps i tr = h ++ ⟨o, r⟩ :: h') :
    ∃ tr₁ tr₂, tr = tr₁ ++ .op i o r :: tr₂ ∧ ownOps i tr₁ = h ∧ ownOps i tr₂ = h' := by
  obtain ⟨tr₁, tail, rfl, first, rest⟩ := List.filterMap_eq_append_iff.mp own
  obtain ⟨skipped, l, tr₂, rfl, none, here, last⟩ := List.filterMap_eq_cons_iff.mp rest
  have label : l = .op i o r := by
    cases l with
    | start q => cases here
    | op j o' r' =>
        simp only [Label.own] at here
        split at here
        · rename_i same
          cases here
          rw [same]
        · cases here
  refine ⟨tr₁ ++ skipped, tr₂, by rw [label, List.append_assoc], ?_, last⟩
  rw [ownOps_append, ownOps, first, ownOps, List.filterMap_eq_nil_iff.mpr none, List.append_nil]

section Runs

variable {C : Pool M ε α ρ → Label S ρ → Prop} {c c' : Pool M ε α ρ} {tr tr₁ tr₂ : List (Label S ρ)}

/-- A move in the middle of a run. -/
theorem Run.split {l : Label S ρ} (run : Run prog C c (tr₁ ++ l :: tr₂) c') :
    ∃ c₁ c₂, Run prog C c tr₁ c₁ ∧ C c₁ l ∧ Move prog c₁ l c₂ ∧ Run prog C c₂ tr₂ c' := by
  generalize eq : tr₁ ++ l :: tr₂ = tr at run
  induction run generalizing tr₂ with
  | nil => cases tr₁ <;> cases eq
  | snoc run cond move ih =>
      rcases List.eq_nil_or_concat tr₂ with rfl | ⟨tr₃, l', rfl⟩
      · obtain ⟨rfl, last⟩ := List.append_inj' eq rfl
        cases last
        exact ⟨_, _, run, cond, move, .nil⟩
      · rw [List.concat_eq_append, ← List.cons_append, ← List.append_assoc] at eq
        obtain ⟨init, last⟩ := List.append_inj' eq rfl
        cases last
        obtain ⟨c₁, c₂, before, cond', move', after⟩ := ih init
        exact ⟨c₁, c₂, before, cond', move', List.concat_eq_append ▸ .snoc after cond move⟩

theorem Run.imp {C' : Pool M ε α ρ → Label S ρ → Prop} (run : Run prog C c tr c')
    (imp : ∀ c₁ l, l ∈ tr → C c₁ l → C' c₁ l) : Run prog C' c tr c' := by
  induction run with
  | nil => exact .nil
  | snoc _ cond move ih =>
      refine .snoc (ih fun c₁ l mem => imp c₁ l (List.mem_append_left _ mem)) ?_ move
      exact imp _ _ (List.mem_append_right _ List.mem_cons_self) cond

/-- A move before a run. -/
theorem Run.cons {c₁ : Pool M ε α ρ} {l : Label S ρ} (run : Run prog C c₁ tr c') (cond : C c l)
    (move : Move prog c l c₁) : Run prog C c (l :: tr) c' := by
  induction run with
  | nil => exact .snoc .nil cond move
  | snoc _ cond' move' ih => exact .snoc ih cond' move'

theorem Run.append {c₁ : Pool M ε α ρ} (run : Run prog C c tr₁ c₁)
    (rest : Run prog C c₁ tr₂ c') : Run prog C c (tr₁ ++ tr₂) c' := by
  induction rest with
  | nil => rwa [List.append_nil]
  | snoc _ cond move ih =>
      rw [← List.append_assoc]
      exact .snoc ih cond move

/-- What a move that performs an operation does. -/
theorem Move.op_inv {i : Nat} {o : S.Op} {r : S.Res o} (move : Move prog c (.op i o r) c') :
    M.step o c.state r c'.state ∧ ∃ q k, c.threads[i]? = some (q, .op o k) ∧
      c'.threads[i]? = some (q, k r) := by
  generalize eq : (.op i o r : Label S ρ) = l at move
  cases move with
  | start q => cases eq
  | @op q o' k w w' r' ts us step =>
      cases eq
      refine ⟨step, q, k, ?_, ?_⟩
      · rw [List.getElem?_append_right (Nat.le_refl _), Nat.sub_self]
        rfl
      · rw [List.getElem?_append_right (Nat.le_refl _), Nat.sub_self]
        rfl

/-- A thread keeps its number and its request, and moves only by its own operation. -/
theorem Move.after {l : Label S ρ} (move : Move prog c l c') {i : Nat} {q : ρ}
    {p : Prog S ε α} (thread : c.threads[i]? = some (q, p)) :
    ∃ p', c'.threads[i]? = some (q, p') ∧ After p (ownOps i [l]) p' := by
  have lt : i < c.threads.length := (List.getElem?_eq_some_iff.mp thread).1
  cases move with
  | start q' =>
      refine ⟨p, ?_, .here⟩
      rw [List.getElem?_append_left lt]
      exact thread
  | @op q' o k w w' r ts us step =>
      rcases Nat.lt_trichotomy i ts.length with before | rfl | after
      · rw [List.getElem?_append_left before] at thread
        refine ⟨p, ?_, ?_⟩
        · rw [List.getElem?_append_left before]
          exact thread
        · rw [ownOps_other (by omega)]
          exact .here
      · rw [List.getElem?_append_right (Nat.le_refl _), Nat.sub_self] at thread
        cases thread
        refine ⟨k r, ?_, ?_⟩
        · rw [List.getElem?_append_right (Nat.le_refl _), Nat.sub_self]
          rfl
        · rw [ownOps_self]
          exact .op .here
      · obtain ⟨d, rfl⟩ : ∃ d, i = ts.length + (d + 1) := ⟨i - ts.length - 1, by omega⟩
        rw [List.getElem?_append_right (by omega), Nat.add_sub_cancel_left,
          List.getElem?_cons_succ] at thread
        refine ⟨p, ?_, ?_⟩
        · rw [List.getElem?_append_right (by omega), Nat.add_sub_cancel_left,
            List.getElem?_cons_succ]
          exact thread
        · rw [ownOps_other (by omega)]
          exact .here

/-- A thread goes on as far as its operations bring it. -/
theorem Run.goesOn (run : Run prog C c tr c') {i : Nat} {q : ρ} {p : Prog S ε α}
    (thread : c.threads[i]? = some (q, p)) :
    ∃ p', c'.threads[i]? = some (q, p') ∧ After p (ownOps i tr) p' := by
  induction run with
  | nil => exact ⟨p, thread, .here⟩
  | snoc _ _ move ih =>
      obtain ⟨p₁, thread, first⟩ := ih
      obtain ⟨p₂, thread, last⟩ := move.after thread
      refine ⟨p₂, thread, ?_⟩
      rw [ownOps_append]
      exact first.append last

theorem Run.request (run : Run prog C c tr c') {i : Nat} {q : ρ} {p : Prog S ε α}
    (thread : c.threads[i]? = some (q, p)) : ∃ p', c'.threads[i]? = some (q, p') := by
  obtain ⟨p', thread, -⟩ := run.goesOn thread
  exact ⟨p', thread⟩

/-- Only threads that were started perform operations. -/
theorem Run.started {w : M.State} (run : Run prog C ⟨w, []⟩ tr c') {i : Nat}
    (new : c'.threads.length ≤ i) : ownOps i tr = [] := by
  induction run generalizing i with
  | nil => rfl
  | snoc run cond move ih =>
      cases move with
      | start q =>
          rw [List.length_append] at new
          rw [ownOps_append, ih (by dsimp only at new ⊢; omega), ownOps_start, List.append_nil]
      | @op q o k w w' r ts us step =>
          simp only [List.length_append, List.length_cons] at new ih
          rw [ownOps_append, ih (by omega), ownOps_other (by omega), List.append_nil]

/-- Every thread is as far as its operations have brought it. -/
theorem Run.after {w : M.State} (run : Run prog C ⟨w, []⟩ tr c') {i : Nat} {q : ρ}
    {p : Prog S ε α} (thread : c'.threads[i]? = some (q, p)) : After (prog q) (ownOps i tr) p := by
  induction run generalizing i q p with
  | nil => cases thread
  | @snoc tr c₁ c₂ l run cond move ih =>
      rw [ownOps_append]
      cases move with
      | @start q' w ts =>
          rw [ownOps_start, List.append_nil]
          by_cases old : i < ts.length
          · rw [List.getElem?_append_left old] at thread
            exact ih thread
          · rw [List.getElem?_append_right (by omega)] at thread
            have last : i = ts.length := by
              have := (List.getElem?_eq_some_iff.mp thread).1
              simp only [List.length_singleton] at this
              omega
            subst last
            rw [Nat.sub_self] at thread
            cases thread
            rw [run.started (Nat.le_refl _)]
            exact .here
      | @op q' o k w w' r ts us step =>
          rcases Nat.lt_trichotomy i ts.length with before | rfl | after
          · rw [List.getElem?_append_left before] at thread
            rw [ownOps_other (by omega), List.append_nil]
            exact ih (by rw [List.getElem?_append_left before]; exact thread)
          · rw [List.getElem?_append_right (Nat.le_refl _), Nat.sub_self] at thread
            cases thread
            rw [ownOps_self]
            have before : After (prog q) (ownOps ts.length tr) (.op o k) :=
              ih (by rw [List.getElem?_append_right (Nat.le_refl _), Nat.sub_self]; rfl)
            exact before.snoc r
          · obtain ⟨d, rfl⟩ : ∃ d, i = ts.length + (d + 1) := ⟨i - ts.length - 1, by omega⟩
            rw [List.getElem?_append_right (by omega), Nat.add_sub_cancel_left,
              List.getElem?_cons_succ] at thread
            rw [ownOps_other (by omega), List.append_nil]
            refine ih ?_
            rw [List.getElem?_append_right (by omega), Nat.add_sub_cancel_left,
              List.getElem?_cons_succ]
            exact thread

/-- Every thread has obeyed its rules so far, and the rest of its program does. -/
theorem Run.obeys {φ : ρ → Past S → S.Op → Prop} {ψ : ρ → Past S → Except ε α → Prop}
    {w : M.State} (starts : ∀ q, (prog q).Obeys (φ q) (ψ q) [])
    (run : Run prog C ⟨w, []⟩ tr c') {i : Nat} {q : ρ} {p : Prog S ε α}
    (thread : c'.threads[i]? = some (q, p)) : p.Obeys (φ q) (ψ q) (ownOps i tr) :=
  (starts q).after (run.after thread)

end Runs

/-! ## Running a schedule -/

/-- Whose turn it is. -/
inductive Turn (ρ : Type)
  | start (q : ρ)
  | step (thread : Nat)

/-- One move of a pool whose operations compute. -/
def Pool.turn (f : (o : S.Op) → M.State → Option (S.Res o × M.State)) (prog : ρ → Prog S ε α) :
    Turn ρ → Pool M ε α ρ → Option (Label S ρ × Pool M ε α ρ)
  | .start q, c => some (.start q, ⟨c.state, c.threads ++ [(q, prog q)]⟩)
  | .step i, c =>
    match c.threads[i]? with
    | some (q, .op o k) =>
      match f o c.state with
      | some (r, w') => some (.op i o r, ⟨w', c.threads.set i (q, k r)⟩)
      | none => none
    | _ => none

def Pool.play (f : (o : S.Op) → M.State → Option (S.Res o × M.State)) (prog : ρ → Prog S ε α) :
    List (Turn ρ) → Pool M ε α ρ → List (Label S ρ) → Option (List (Label S ρ) × Pool M ε α ρ)
  | [], c, tr => some (tr, c)
  | t :: ts, c, tr =>
    match c.turn f prog t with
    | some (l, c') => Pool.play f prog ts c' (tr ++ [l])
    | none => none

section Schedules

variable {f : (o : S.Op) → M.State → Option (S.Res o × M.State)} {c c' : Pool M ε α ρ}

theorem Pool.turn_move (sound : ∀ o w r w', f o w = some (r, w') → M.step o w r w') {t : Turn ρ}
    {l : Label S ρ} (turn : c.turn f prog t = some (l, c')) : Move prog c l c' := by
  cases t with
  | start q =>
      cases turn
      exact .start q
  | step i =>
      simp only [Pool.turn] at turn
      split at turn
      · rename_i q o k thread
        split at turn
        · rename_i r w' step
          cases turn
          obtain ⟨lt, here⟩ := List.getElem?_eq_some_iff.mp thread
          have split : c.threads = c.threads.take i ++ (q, .op o k) :: c.threads.drop (i + 1) := by
            rw [← here, ← List.drop_eq_getElem_cons lt, List.take_append_drop]
          have length : (c.threads.take i).length = i := List.length_take_of_le (Nat.le_of_lt lt)
          have move : Move prog ⟨c.state, c.threads.take i ++ (q, .op o k) :: c.threads.drop (i + 1)⟩
              (.op (c.threads.take i).length o r)
              ⟨w', c.threads.take i ++ (q, k r) :: c.threads.drop (i + 1)⟩ :=
            .op (sound o c.state r w' step)
          rw [length, ← split] at move
          rw [List.set_eq_take_append_cons_drop, if_pos lt]
          exact move
        · cases turn
      · cases turn

theorem Pool.play_run (sound : ∀ o w r w', f o w = some (r, w') → M.step o w r w')
    {c₀ : Pool M ε α ρ} {ts : List (Turn ρ)} {tr tr' : List (Label S ρ)}
    (run : Run prog (fun _ _ => True) c₀ tr c) (play : c.play f prog ts tr = some (tr', c')) :
    Run prog (fun _ _ => True) c₀ tr' c' := by
  induction ts generalizing c tr with
  | nil =>
      cases play
      exact run
  | cons t ts ih =>
      simp only [Pool.play] at play
      split at play
      · rename_i l c₁ turn
        exact ih (.snoc run trivial (Pool.turn_move sound turn)) play
      · cases play

end Schedules

/-! ## Sharing out resources -/

variable [AddCommMonoid R] {G : Protocol M R} {Q : ρ → Except ε α → R → Prop}

/-- The threads can share out the resource `T` such that each is safe from its share. -/
def Shares (G : Protocol M R) (Q : ρ → Except ε α → R → Prop) :
    List (ρ × Prog S ε α) → R → Prop
  | [], T => T = 0
  | (q, p) :: ts, T => ∃ S T', T = S + T' ∧ p.Safe G S (Q q) ∧ Shares G Q ts T'

theorem shares_append {ts us : List (ρ × Prog S ε α)} {T : R} :
    Shares G Q (ts ++ us) T ↔ ∃ S S', T = S + S' ∧ Shares G Q ts S ∧ Shares G Q us S' := by
  induction ts generalizing T with
  | nil =>
      constructor
      · intro h
        exact ⟨0, T, (zero_add T).symm, rfl, h⟩
      · rintro ⟨S, S', rfl, rfl, h⟩
        rwa [zero_add]
  | cons t ts ih =>
      obtain ⟨q, p⟩ := t
      constructor
      · rintro ⟨S, T', rfl, safe, rest⟩
        obtain ⟨U, V, rfl, hts, hus⟩ := ih.mp rest
        exact ⟨S + U, V, (add_assoc S U V).symm, ⟨S, U, rfl, safe, hts⟩, hus⟩
      · rintro ⟨_, V, rfl, ⟨S, U, rfl, safe, hts⟩, hus⟩
        exact ⟨S, U + V, add_assoc S U V, safe, ih.mpr ⟨U, V, rfl, hts, hus⟩⟩

/-- The threads and the environment's `E` make up what the invariant counts. -/
def Pool.Ok (G : Protocol M R) (Q : ρ → Except ε α → R → Prop) (E : R)
    (c : Pool M ε α ρ) : Prop :=
  ∃ T, Shares G Q c.threads T ∧ G.inv c.state (T + E)

/-- One thread's share, with everything else as its frame. -/
theorem Pool.Ok.thread {E : R} {w : M.State} {ts us : List (ρ × Prog S ε α)} {q : ρ}
    {p : Prog S ε α} (ok : Pool.Ok G Q E ⟨w, ts ++ (q, p) :: us⟩) :
    ∃ T F, p.Safe G T (Q q) ∧ G.inv w (T + F) ∧
      ∀ p' T' w', p'.Safe G T' (Q q) → G.inv w' (T' + F) →
        Pool.Ok G Q E ⟨w', ts ++ (q, p') :: us⟩ := by
  obtain ⟨T, shares, inv⟩ := ok
  obtain ⟨S, _, rfl, hts, U, S', rfl, safe, hus⟩ := shares_append.mp shares
  have regroup : ∀ V : R, S + (V + S') + E = V + (S + S' + E) := fun V => by
    rw [add_left_comm S V S', add_assoc]
  refine ⟨U, S + S' + E, safe, regroup U ▸ inv, fun p' T' w' safe' inv' => ?_⟩
  exact ⟨S + (T' + S'), shares_append.mpr ⟨S, T' + S', rfl, hts, T', S', rfl, safe', hus⟩,
    (regroup T').symm ▸ inv'⟩

/-- A thread about to perform an operation meets its guard. -/
theorem Pool.Ok.guard {E : R} {w : M.State} {ts us : List (ρ × Prog S ε α)} {q : ρ} {o : S.Op}
    {k : S.Res o → Prog S ε α} (ok : Pool.Ok G Q E ⟨w, ts ++ (q, .op o k) :: us⟩) :
    G.guard o w := by
  obtain ⟨T, F, safe, inv, -⟩ := ok.thread
  exact (safe w F inv).1

theorem Move.ok {E : R} {c c' : Pool M ε α ρ} {l : Label S ρ}
    (starts : ∀ q, (prog q).Safe G 0 (Q q)) (ok : c.Ok G Q E) (move : Move prog c l c') :
    c'.Ok G Q E := by
  cases move with
  | start q =>
      obtain ⟨T, shares, inv⟩ := ok
      refine ⟨T, shares_append.mpr ⟨T, 0, (add_zero T).symm, shares, 0, 0, ?_, starts q, rfl⟩, inv⟩
      rw [add_zero]
  | op step =>
      obtain ⟨T, F, safe, inv, put⟩ := ok.thread
      obtain ⟨T', inv', safe'⟩ := (safe _ F inv).2 _ _ step
      exact put _ T' _ safe' inv'

/-- Safe requests keep the protocol under every interleaving. -/
theorem Run.ok {E : R} {C : Pool M ε α ρ → Label S ρ → Prop} {c c' : Pool M ε α ρ}
    {tr : List (Label S ρ)} (starts : ∀ q, (prog q).Safe G 0 (Q q)) (ok : c.Ok G Q E)
    (run : Run prog C c tr c') : c'.Ok G Q E := by
  induction run with
  | nil => exact ok
  | snoc _ _ move ih => exact move.ok starts ih

/-! ## Threads that remember -/

/-- The pool whose threads report what they have done. -/
def Pool.traced (tr : List (Label S ρ)) (c : Pool M ε α ρ) :
    Pool M (ε × Past S) (α × Past S) ρ :=
  ⟨c.state, c.threads.mapIdx fun i t => (t.1, t.2.traced (ownOps i tr))⟩

theorem Run.traced {C : Pool M ε α ρ → Label S ρ → Prop} {w : M.State} {c' : Pool M ε α ρ}
    {tr : List (Label S ρ)} (run : Run prog C ⟨w, []⟩ tr c') :
    Run (fun q => (prog q).traced []) (fun _ _ => True) ⟨w, []⟩ tr (c'.traced tr) := by
  induction run with
  | nil => exact .nil
  | @snoc tr c₁ c₂ l run cond move ih =>
      refine .snoc ih trivial ?_
      cases move with
      | @start q w ts =>
          have same : ∀ i, ownOps i (tr ++ [.start q]) = ownOps i tr := fun i => by
            rw [ownOps_append, ownOps_start, List.append_nil]
          have last : ownOps ts.length tr = [] := run.started (Nat.le_refl _)
          simp only [Pool.traced, same, List.mapIdx_append, List.mapIdx_cons, List.mapIdx_nil,
            Nat.zero_add, last]
          exact .start q
      | @op q o k w w' r ts us step =>
          have before : (ts.mapIdx fun i t => (t.1, t.2.traced (ownOps i (tr ++ [.op ts.length o r]))))
              = ts.mapIdx fun i t => (t.1, t.2.traced (ownOps i tr)) := by
            refine List.mapIdx_eq_mapIdx_iff.mpr fun i lt => ?_
            rw [ownOps_append, ownOps_other (by omega), List.append_nil]
          have after : ∀ i, ownOps (i + 1 + ts.length) (tr ++ [.op ts.length o r]) =
              ownOps (i + 1 + ts.length) tr := fun i => by
            rw [ownOps_append, ownOps_other (by omega), List.append_nil]
          have own : ownOps ts.length (tr ++ [.op ts.length o r]) =
              ownOps ts.length tr ++ [⟨o, r⟩] := by rw [ownOps_append, ownOps_self]
          simp only [Pool.traced, List.mapIdx_append, List.mapIdx_cons, before, Nat.zero_add, own,
            after]
          have length : (ts.mapIdx fun i t => (t.1, t.2.traced (ownOps i tr))).length = ts.length :=
            List.length_mapIdx
          rw [← length]
          exact .op step

end Prog
