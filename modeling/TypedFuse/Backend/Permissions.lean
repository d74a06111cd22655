import Mathlib.Data.Nat.Bitwise
import TypedFuse.Backend.Times

/-!
# Permission checks

`access_check` and `utimens_permission_check` of `passthrough.rs`.  The first chooses one class of
the mode bits, owner, group or others; the second asks whether any class the caller is in may write.
They differ for a caller of the file's group where others may write and the group may not, and
`touch_agrees_iff` is that they differ nowhere else.
-/

namespace TypedFuse

open SystemTime

/-- `W_OK`. -/
def wOk : Nat := 2

def accessCheck (caller : Caller) (fileUid fileGid mode mask : Nat) : Except Exit Unit :=
  -- The `debug_assert!` on the mask.
  if mask / 8 ≠ 0 then .error .panic
  else if mask &&& 7 = 0 ∨ caller.uid = 0 then .ok ()
  else
    let effective :=
      if caller.uid = fileUid then (mode >>> 6) &&& 7
      else if caller.gid = fileGid then (mode >>> 3) &&& 7
      else mode &&& 7
    let need := mask &&& 7
    if effective &&& need = need then .ok () else .error (.errno .EACCES)

namespace Duration

/-- `Duration::MAX`. -/
def max : Duration := ⟨.ofNat (2 ^ 64 - 1), nanosPerSec - 1, by decide⟩

/-- `Duration::from_millis(10)`. -/
def tenMillis : Duration := ⟨0, 10000000, by decide⟩

/-- The order of durations. -/
def lt (d e : Duration) : Bool := d.total < e.total

end Duration

/-- `duration_since(..).unwrap_or(Duration::MAX)`. -/
def sinceOrMax (t u : SystemTime) : Duration :=
  match t.durationSince u with
  | .ok d => d
  | .error _ => Duration.max

/-- The closure `near_now`. -/
def nearNow (now t : SystemTime) : Bool :=
  (sinceOrMax now t).lt .tenMillis || (sinceOrMax t now).lt .tenMillis

def utimensPermissionCheck (caller : Caller) (fileUid fileGid mode : Nat) (now : SystemTime)
    (atime mtime : Option SystemTime) : Except Exit Unit :=
  if caller.uid = 0 then .ok ()
  else if caller.uid = fileUid then .ok ()
  else if atime.isSome = false ∧ mtime.isSome = false then .ok ()
  else if atime.all (nearNow now) ∧ mtime.all (nearNow now) then
    if (caller.uid = fileUid ∧ mode &&& 0o200 ≠ 0) ∨ (caller.gid = fileGid ∧ mode &&& 0o020 ≠ 0) ∨
        mode &&& 0o002 ≠ 0 then .ok ()
    else .error (.errno .EACCES)
  else .error (.errno .EPERM)

/-! ## The window -/

/-- Less than ten milliseconds apart. -/
def Within (now t : SystemTime) : Prop :=
  now.total - t.total < 10000000 ∧ t.total - now.total < 10000000

theorem Duration.ofTotal_total {n : Nat} (fits : n < 2 ^ 64 * nanosPerSec) :
    (Duration.ofTotal n).total = n := by
  have secs := Duration.ofTotal_secs fits
  unfold Duration.total
  simp only [MachineInt.toInt, secs]
  unfold Duration.ofTotal nanosPerSec
  dsimp only
  omega

theorem total_range (t : SystemTime) :
    -2 ^ 63 * nanosPerSec ≤ t.total ∧ t.total < 2 ^ 63 * nanosPerSec := by
  have ge := t.secs.le_toInt
  have lt := t.secs.toInt_lt
  have ht := t.nanos_lt
  unfold SystemTime.total nanosPerSec at *
  omega

/-- The duration since an earlier time, as an integer. -/
theorem sinceOrMax_lt (t u : SystemTime) :
    (sinceOrMax t u).lt .tenMillis = true ↔ u.total ≤ t.total ∧ t.total - u.total < 10000000 := by
  have ht := total_range t
  have hu := total_range u
  have ten : Duration.tenMillis.total = 10000000 := rfl
  unfold sinceOrMax SystemTime.durationSince Duration.lt
  rw [decide_eq_true_iff, ten]
  by_cases later : u.total ≤ t.total
  · rw [if_pos later]
    dsimp only
    rw [Duration.ofTotal_total (by unfold nanosPerSec at *; omega)]
    omega
  · rw [if_neg later]
    dsimp only
    have long : ¬Duration.max.total < 10000000 := by decide
    omega

theorem nearNow_iff {now t : SystemTime} : nearNow now t = true ↔ Within now t := by
  unfold nearNow Within
  rw [Bool.or_eq_true, sinceOrMax_lt, sinceOrMax_lt]
  omega

/-! ## The mode bits -/

/-- A bit of the mode, asked for as a mask that must be there. -/
theorem and_two_pow_eq {n i : Nat} : n &&& 2 ^ i = 2 ^ i ↔ n.testBit i = true := by
  have positive := Nat.two_pow_pos i
  rw [Nat.and_two_pow]
  cases n.testBit i with
  | false =>
      simp only [Bool.toNat_false, Nat.zero_mul, Bool.false_eq_true, iff_false]
      omega
  | true => simp

/-- A bit of the mode, asked for as a mask that must not vanish. -/
theorem and_two_pow_ne_zero {n i : Nat} : n &&& 2 ^ i ≠ 0 ↔ n.testBit i = true := by
  rw [Nat.and_two_pow]
  cases n.testBit i <;> simp

theorem group_write (mode : Nat) : ((mode >>> 3) &&& 7) &&& 2 = 2 ↔ mode &&& 0o020 ≠ 0 := by
  have bit : ((mode >>> 3) &&& 7).testBit 1 = mode.testBit 4 := by
    rw [Nat.testBit_and, Nat.testBit_shiftRight]
    exact Bool.and_true _
  exact (and_two_pow_eq (i := 1)).trans (bit ▸ (and_two_pow_ne_zero (i := 4)).symm)

theorem other_write (mode : Nat) : (mode &&& 7) &&& 2 = 2 ↔ mode &&& 0o002 ≠ 0 := by
  have bit : (mode &&& 7).testBit 1 = mode.testBit 1 := by
    rw [Nat.testBit_and]
    exact Bool.and_true _
  exact (and_two_pow_eq (i := 1)).trans (bit ▸ (and_two_pow_ne_zero (i := 1)).symm)

/-! ## Where the checks agree -/

section Touch

variable {caller : Caller} {fileUid fileGid mode : Nat} {now : SystemTime}
  {atime mtime : Option SystemTime}

/-- Every requested time is within the window. -/
def AllWithin (now : SystemTime) (atime mtime : Option SystemTime) : Prop :=
  ∀ t, atime = some t ∨ mtime = some t → Within now t

/-- A caller of the file's group, where others may write and the group may not. -/
def GroupShutOut (caller : Caller) (fileGid mode : Nat) : Prop :=
  caller.gid = fileGid ∧ mode &&& 0o002 ≠ 0 ∧ mode &&& 0o020 = 0

/-- Touching to about now needs write access as `access` sees it, and any other time is refused. -/
structure TouchAgrees (caller : Caller) (fileUid fileGid mode : Nat) (now : SystemTime)
    (atime mtime : Option SystemTime) : Prop where
  touch : AllWithin now atime mtime →
    (utimensPermissionCheck caller fileUid fileGid mode now atime mtime = .ok () ↔
      accessCheck caller fileUid fileGid mode wOk = .ok ())
  refused : AllWithin now atime mtime →
    utimensPermissionCheck caller fileUid fileGid mode now atime mtime ≠ .ok () →
    utimensPermissionCheck caller fileUid fileGid mode now atime mtime = .error (.errno .EACCES)
  explicit : ¬AllWithin now atime mtime →
    utimensPermissionCheck caller fileUid fileGid mode now atime mtime = .error (.errno .EPERM)

theorem all_nearNow_iff :
    (atime.all (nearNow now) ∧ mtime.all (nearNow now)) ↔ AllWithin now atime mtime := by
  unfold AllWithin
  rw [Option.all_eq_true, Option.all_eq_true]
  simp only [nearNow_iff]
  constructor
  · rintro ⟨ha, hm⟩ t (eq | eq)
    · exact ha t eq
    · exact hm t eq
  · intro all
    exact ⟨fun t eq => all t (.inl eq), fun t eq => all t (.inr eq)⟩

/-- What `access` says of writing by a caller who is neither root nor the owner. -/
theorem accessCheck_write (fileGid mode : Nat) (root : caller.uid ≠ 0) (owner : caller.uid ≠ fileUid) :
    accessCheck caller fileUid fileGid mode wOk = .ok () ↔
      if caller.gid = fileGid then mode &&& 0o020 ≠ 0 else mode &&& 0o002 ≠ 0 := by
  have mask : ¬(wOk &&& 7 = 0 ∨ caller.uid = 0) := by
    rintro (zero | uid)
    · exact absurd zero (by decide)
    · exact root uid
  have need : wOk &&& 7 = 2 := by decide
  unfold accessCheck
  rw [if_neg (by decide), if_neg mask, if_neg owner, need]
  dsimp only
  by_cases group : caller.gid = fileGid
  · rw [if_pos group, if_pos group, ← group_write]
    split <;> simp [*]
  · rw [if_neg group, if_neg group, ← other_write]
    split <;> simp [*]

/-- What the touch check says of a caller who is neither root nor the owner. -/
theorem utimensPermissionCheck_eq (fileGid mode : Nat) (now : SystemTime) (root : caller.uid ≠ 0)
    (owner : caller.uid ≠ fileUid) (requested : atime.isSome ∨ mtime.isSome) :
    (AllWithin now atime mtime →
      utimensPermissionCheck caller fileUid fileGid mode now atime mtime =
        if (caller.gid = fileGid ∧ mode &&& 0o020 ≠ 0) ∨ mode &&& 0o002 ≠ 0 then .ok ()
        else .error (.errno .EACCES)) ∧
    (¬AllWithin now atime mtime →
      utimensPermissionCheck caller fileUid fileGid mode now atime mtime =
        .error (.errno .EPERM)) := by
  have some : ¬(atime.isSome = false ∧ mtime.isSome = false) := by
    rintro ⟨ha, hm⟩
    rw [ha, hm] at requested
    rcases requested with h | h <;> cases h
  unfold utimensPermissionCheck
  rw [if_neg root, if_neg owner, if_neg some]
  constructor
  · intro all
    rw [if_pos (all_nearNow_iff.mpr all)]
    simp only [owner, false_and, false_or]
  · intro outside
    rw [if_neg fun all => outside (all_nearNow_iff.mp all)]

end Touch

/-- The two checks agree, except on a caller of the file's group where others may write and the
group may not. -/
theorem touch_agrees_iff (caller : Caller) (fileUid fileGid mode : Nat) (now : SystemTime)
    (atime mtime : Option SystemTime) (root : caller.uid ≠ 0) (owner : caller.uid ≠ fileUid)
    (requested : atime.isSome ∨ mtime.isSome) :
    TouchAgrees caller fileUid fileGid mode now atime mtime ↔
      ¬(AllWithin now atime mtime ∧ GroupShutOut caller fileGid mode) := by
  obtain ⟨inside, outside⟩ := utimensPermissionCheck_eq fileGid mode now root owner requested
  have access := accessCheck_write fileGid mode root owner
  constructor
  · rintro agrees ⟨all, group, others, groupBit⟩
    have ok := (agrees.touch all).mp (by rw [inside all, if_pos (.inr others)])
    rw [access, if_pos group] at ok
    exact ok groupBit
  · intro shut
    refine ⟨fun all => ?_, fun all ne => ?_, outside⟩
    · rw [inside all, access]
      have shut : ¬GroupShutOut caller fileGid mode := fun out => shut ⟨all, out⟩
      unfold GroupShutOut at shut
      by_cases group : caller.gid = fileGid
      · rw [if_pos group]
        split
        · rename_i write
          simp only [true_iff]
          intro groupBit
          rcases write with ⟨-, bit⟩ | others
          · exact bit groupBit
          · exact shut ⟨group, others, groupBit⟩
        · rename_i write
          simp only [reduceCtorEq, false_iff]
          exact fun bit => write (.inl ⟨group, bit⟩)
      · rw [if_neg group]
        simp only [group, false_and, false_or]
        split <;> simp [*]
    · rw [inside all] at ne ⊢
      split
      · rename_i write
        rw [if_pos write] at ne
        exact absurd rfl ne
      · rfl

/-- A caller of another group touches a file others may write to. -/
theorem stranger_touch_agrees : TouchAgrees ⟨1000, 1000, 1, 0⟩ 0 0 0o602 unixEpoch (some unixEpoch)
    none :=
  (touch_agrees_iff _ _ _ _ _ _ _ (by decide) (by decide) (by decide)).mpr
    fun ⟨_, group, _⟩ => absurd group (by decide)

/-- A caller of the file's group may touch a file that only others may write to. -/
theorem shut_out_group_touches :
    utimensPermissionCheck ⟨1000, 100, 1, 0⟩ 0 100 0o602 unixEpoch (some unixEpoch) none = .ok () ∧
    accessCheck ⟨1000, 100, 1, 0⟩ 0 100 0o602 wOk = .error (.errno .EACCES) ∧
    ¬∀ (caller : Caller) (fileUid fileGid mode : Nat) (now : SystemTime)
      (atime mtime : Option SystemTime), caller.uid ≠ 0 → caller.uid ≠ fileUid →
      atime.isSome ∨ mtime.isSome → TouchAgrees caller fileUid fileGid mode now atime mtime := by
  have within : AllWithin unixEpoch (some unixEpoch) none := by
    rintro t (eq | eq)
    · cases eq
      exact ⟨by decide, by decide⟩
    · cases eq
  have touches : utimensPermissionCheck ⟨1000, 100, 1, 0⟩ 0 100 0o602 unixEpoch (some unixEpoch)
      none = .ok () := by
    rw [(utimensPermissionCheck_eq 100 0o602 unixEpoch (by decide) (by decide) (by decide)).1 within]
    decide
  refine ⟨touches, by decide, fun always => ?_⟩
  have agrees := always ⟨1000, 100, 1, 0⟩ 0 100 0o602 unixEpoch (some unixEpoch) none (by decide)
    (by decide) (by decide)
  exact absurd ((agrees.touch within).mp touches) (by decide)

end TypedFuse
