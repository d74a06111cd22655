import TypedFuse.Core.Types
import TypedFuse.Lib.MachineInt

/-!
# Timestamps

The conversions between `SystemTime` and the pairs of seconds and nanoseconds of the C structs:
`conv.rs` in both directions, `system_time_from_secs` and `to_timespec` of `passthrough.rs`.  A
`none` is a panic, of a plain operator that overflows or of a `std` operation that says so.

Seconds are rounded down, so half a second before the epoch is the pair `(-1, 500_000_000)`, while
the `Duration` to the epoch is half a second.  Each conversion has its own way between the two.
`timestamps_exact_iff` and `written_times_kept_iff` say where they agree: all but the earliest
second can be decoded, and only times from the epoch on are written as they are.
-/

namespace TypedFuse

open MachineInt

/-- Nanoseconds in a second. -/
def nanosPerSec : Nat := 1000000000

/-! ## `std::time` -/

/-- `Duration`. -/
@[ext] structure Duration where
  secs : UInt64
  nanos : Nat
  nanos_lt : nanos < nanosPerSec

namespace Duration

/-- `Duration::new`, which carries whole seconds out of `nanos`. -/
def new (secs : UInt64) (nanos : UInt32) : Option Duration :=
  (checked (toInt secs + (nanos.toNat / nanosPerSec : Nat))).map fun secs =>
    ⟨secs, nanos.toNat % nanosPerSec, Nat.mod_lt _ (by decide)⟩

/-- In nanoseconds. -/
def total (d : Duration) : Int := toInt d.secs * nanosPerSec + d.nanos

def ofTotal (n : Nat) : Duration :=
  ⟨.ofNat (n / nanosPerSec), n % nanosPerSec, Nat.mod_lt _ (by decide)⟩

def zero : Duration := ⟨0, 0, by decide⟩

end Duration

/-- `SystemTime` on Unix: seconds since the epoch, rounded down, and nanoseconds after that. -/
@[ext] structure SystemTime where
  secs : Int64
  nanos : Nat
  nanos_lt : nanos < nanosPerSec

namespace SystemTime

def unixEpoch : SystemTime := ⟨0, 0, by decide⟩

/-- In nanoseconds since the epoch. -/
def total (t : SystemTime) : Int := t.secs.toInt * nanosPerSec + t.nanos

/-- The time at so many nanoseconds, if its seconds fit. -/
def ofTotal (n : Int) : Option SystemTime :=
  (checked (n / nanosPerSec)).map fun secs =>
    ⟨secs, (n % nanosPerSec).toNat, by unfold nanosPerSec; omega⟩

def checkedAdd (t : SystemTime) (d : Duration) : Option SystemTime := ofTotal (t.total + d.total)

def checkedSub (t : SystemTime) (d : Duration) : Option SystemTime := ofTotal (t.total - d.total)

/-- `duration_since`: the error has the duration the other way. -/
def durationSince (t u : SystemTime) : Except Duration Duration :=
  if u.total ≤ t.total then .ok (.ofTotal (t.total - u.total).toNat)
  else .error (.ofTotal (u.total - t.total).toNat)

end SystemTime

open SystemTime

/-! ## `conv.rs` -/

def systemTimeToSecsNsecs (t : SystemTime) : Option (Int64 × Int64) :=
  match t.durationSince unixEpoch with
  | .ok d => some (d.secs.toInt64, .ofNat d.nanos)
  | .error d =>
    let secs := d.secs.toInt64
    let nsecs := Int64.ofNat d.nanos
    if nsecs = 0 then do
      let negated : Int64 ← checked (-toInt secs)
      some (negated, 0)
    else do
      let negated : Int64 ← checked (-toInt secs)
      let floor : Int64 ← checked (toInt negated - 1)
      let rest : Int64 ← checked (nanosPerSec - toInt nsecs)
      some (floor, rest)

def secsNsecsToSystemTime (secs nsecs : Int64) : Option SystemTime :=
  if 0 ≤ secs then do
    let d ← Duration.new secs.toUInt64 nsecs.toUInt64.toUInt32
    unixEpoch.checkedAdd d
  else do
    let negated : Int64 ← checked (-toInt secs)
    let whole ← Duration.new negated.toUInt64 0
    let t ← unixEpoch.checkedSub whole
    let rest ← Duration.new 0 nsecs.toUInt64.toUInt32
    t.checkedAdd rest

/-! ## `passthrough.rs` -/

/-- `i64::unsigned_abs`. -/
def unsignedAbs (x : Int64) : UInt64 := .ofNat x.toInt.natAbs

def systemTimeFromSecs (secs nanos : Int64) : Option SystemTime :=
  if 0 ≤ secs then do
    let d ← Duration.new secs.toUInt64 nanos.toUInt64.toUInt32
    unixEpoch.checkedAdd d
  else do
    let d ← if nanos = 0 then Duration.new (unsignedAbs secs) 0 else do
      let whole : UInt64 ← checked (toInt (unsignedAbs secs) - 1)
      let rest : UInt32 ← checked (nanosPerSec - toInt nanos.toUInt64.toUInt32)
      Duration.new whole rest
    some ((unixEpoch.checkedSub d).getD unixEpoch)

structure Timespec where
  sec : Int64
  nsec : Int64
deriving DecidableEq, Repr

/-- `to_timespec`. -/
def toTimespec (utimeOmit : Int64) : Option SystemTime → Timespec
  | some t =>
    let d := match t.durationSince unixEpoch with
      | .ok d => d
      | .error _ => Duration.zero
    ⟨d.secs.toInt64, .ofNat d.nanos⟩
  | none => ⟨0, utimeOmit⟩

/-- The two times of a file. -/
structure FileTimes where
  atime : Timespec
  mtime : Timespec

/-- `futimens` and `utimensat`: on success each time is set to what was given, unless that is
`UTIME_OMIT`. -/
structure TimesCall where
  utimeOmit : Int64
  store : FileTimes → Timespec → Timespec → Except Errno FileTimes
  sets_atime : ∀ old new a m, store old a m = .ok new → 0 ≤ a.nsec → a.nsec.toInt < nanosPerSec →
    new.atime = a
  sets_mtime : ∀ old new a m, store old a m = .ok new → 0 ≤ m.nsec → m.nsec.toInt < nanosPerSec →
    new.mtime = m

def utimensFd (futimens : TimesCall) (file : FileTimes) (atime mtime : Option SystemTime) :
    Except Errno FileTimes :=
  futimens.store file (toTimespec futimens.utimeOmit atime) (toTimespec futimens.utimeOmit mtime)

/-- `c_path` refuses a path with a NUL byte. -/
def utimensPath (utimensat : TimesCall) (path : List UInt8) (file : FileTimes)
    (atime mtime : Option SystemTime) : Except Errno FileTimes :=
  if 0 ∈ path then .error .EINVAL
  else utimensat.store file (toTimespec utimensat.utimeOmit atime) (toTimespec utimensat.utimeOmit mtime)

/-! ## Times as integers -/

theorem some_bind {α β : Type} (a : α) (f : α → Option β) : (some a >>= f) = f a := rfl

theorem zero_lt : 0 < nanosPerSec := by decide

theorem Duration.new_eq {secs : UInt64} {nanos : UInt32} (small : nanos.toNat < nanosPerSec) :
    Duration.new secs nanos = some ⟨secs, nanos.toNat, small⟩ := by
  have carry : nanos.toNat / nanosPerSec = 0 := Nat.div_eq_of_lt small
  have same : checked (toInt secs + (nanos.toNat / nanosPerSec : Nat)) = some secs :=
    checked_eq_some.mpr (by rw [carry]; simp)
  unfold Duration.new
  rw [same]
  simp only [Option.map_some, Nat.mod_eq_of_lt small]

theorem Duration.new_whole (secs : UInt64) : Duration.new secs 0 = some ⟨secs, 0, zero_lt⟩ :=
  Duration.new_eq (by decide)

theorem Duration.ofTotal_secs {n : Nat} (fits : n < 2 ^ 64 * nanosPerSec) :
    (Duration.ofTotal n).secs.toNat = n / nanosPerSec := by
  unfold Duration.ofTotal nanosPerSec at *
  exact UInt64.toNat_ofNat_of_lt' (by simp only [UInt64.size]; omega)

namespace SystemTime

variable {t u : SystemTime} {n : Int}

theorem total_inj (eq : t.total = u.total) : t = u := by
  have ht := t.nanos_lt
  have hu := u.nanos_lt
  unfold total at eq
  unfold nanosPerSec at *
  have secs : t.secs.toInt = u.secs.toInt := by omega
  ext1
  · exact Int64.toInt.inj secs
  · omega

theorem ofTotal_eq_some : ofTotal n = some t ↔ t.total = n := by
  have ht := t.nanos_lt
  unfold ofTotal
  rw [Option.map_eq_some_iff]
  constructor
  · rintro ⟨secs, floor, rfl⟩
    have floor := checked_eq_some.mp floor
    simp only [toInt] at floor
    unfold total nanosPerSec at *
    dsimp only at *
    omega
  · intro eq
    have floor : t.secs.toInt = n / nanosPerSec := by
      unfold total nanosPerSec at *
      omega
    refine ⟨t.secs, checked_eq_some.mpr floor, ?_⟩
    ext1
    · rfl
    · unfold total nanosPerSec at *
      dsimp only
      omega

theorem checkedAdd_eq_some {d : Duration} :
    t.checkedAdd d = some u ↔ u.total = t.total + d.total := ofTotal_eq_some

theorem checkedSub_eq_some {d : Duration} :
    t.checkedSub d = some u ↔ u.total = t.total - d.total := ofTotal_eq_some

theorem unixEpoch_total : unixEpoch.total = 0 := by
  unfold total unixEpoch
  rw [Int64.toInt_zero]
  rfl

/-- From the epoch on. -/
theorem durationSince_of_nonneg (later : 0 ≤ t.secs.toInt) :
    ∃ d, t.durationSince unixEpoch = .ok d ∧ (d.secs.toNat : Int) = t.secs.toInt ∧
      d.nanos = t.nanos := by
  have lt := t.secs.toInt_lt
  have ht := t.nanos_lt
  unfold durationSince
  rw [unixEpoch_total]
  have after : 0 ≤ t.total := by
    unfold total nanosPerSec
    omega
  rw [if_pos after]
  refine ⟨_, rfl, ?_, ?_⟩
  · rw [Duration.ofTotal_secs (by unfold total nanosPerSec at *; omega)]
    unfold total nanosPerSec at *
    omega
  · unfold total Duration.ofTotal nanosPerSec at *
    dsimp only
    omega

/-- A whole number of seconds before the epoch. -/
theorem durationSince_of_whole (earlier : t.secs.toInt < 0) (whole : t.nanos = 0) :
    ∃ d, t.durationSince unixEpoch = .error d ∧ (d.secs.toNat : Int) = -t.secs.toInt ∧
      d.nanos = 0 := by
  have ge := t.secs.le_toInt
  unfold durationSince
  rw [unixEpoch_total]
  have before : ¬0 ≤ t.total := by
    unfold total nanosPerSec
    omega
  rw [if_neg before]
  refine ⟨_, rfl, ?_, ?_⟩
  · rw [Duration.ofTotal_secs (by unfold total nanosPerSec; omega)]
    unfold total nanosPerSec
    omega
  · unfold total Duration.ofTotal nanosPerSec
    dsimp only
    omega

/-- Within a second before the epoch: the duration is rounded the other way. -/
theorem durationSince_of_part (earlier : t.secs.toInt < 0) (part : t.nanos ≠ 0) :
    ∃ d, t.durationSince unixEpoch = .error d ∧ (d.secs.toNat : Int) = -t.secs.toInt - 1 ∧
      d.nanos = nanosPerSec - t.nanos := by
  have ge := t.secs.le_toInt
  have ht := t.nanos_lt
  unfold durationSince
  rw [unixEpoch_total]
  have before : ¬0 ≤ t.total := by
    unfold total nanosPerSec at *
    omega
  rw [if_neg before]
  refine ⟨_, rfl, ?_, ?_⟩
  · rw [Duration.ofTotal_secs (by unfold total nanosPerSec at *; omega)]
    unfold total nanosPerSec at *
    omega
  · unfold total Duration.ofTotal nanosPerSec at *
    dsimp only
    omega

end SystemTime

/-! ## What each conversion computes -/

/-- The seconds and nanoseconds of a time. -/
def SystemTime.pair (t : SystemTime) : Int64 × Int64 := (t.secs, .ofNat t.nanos)

theorem ofNat_nanos {n : Nat} (lt : n < nanosPerSec) : (Int64.ofNat n).toInt = n := by
  unfold nanosPerSec at lt
  exact Int64.toInt_ofNat_of_lt (by omega)

theorem toInt64_toInt (x : UInt64) : x.toInt64.toInt = (x.toNat : Int).bmod (2 ^ 64) :=
  BitVec.toInt_eq_toNat_bmod x.toBitVec

theorem toInt64_eq {x : UInt64} (lt : x.toNat < 2 ^ 63) : x.toInt64.toInt = x.toNat := by
  rw [toInt64_toInt]
  exact Int.bmod_eq_of_le (by omega) (by omega)

theorem ne_minValue_iff {x : Int64} : x ≠ Int64.minValue ↔ -2 ^ 63 < x.toInt := by
  have ge := x.le_toInt
  have min : Int64.minValue.toInt = -2 ^ 63 := by decide
  constructor
  · intro ne
    have : x.toInt ≠ -2 ^ 63 := fun eq => ne (Int64.toInt.inj (eq.trans min.symm))
    omega
  · rintro lt rfl
    omega

/-- The encoder is exact, except that it negates the earliest second. -/
theorem systemTimeToSecsNsecs_eq (t : SystemTime) : systemTimeToSecsNsecs t =
    if t.secs = Int64.minValue ∧ t.nanos = 0 then none else some t.pair := by
  have ge := t.secs.le_toInt
  have lt := t.secs.toInt_lt
  have ht := t.nanos_lt
  unfold systemTimeToSecsNsecs
  by_cases later : 0 ≤ t.secs.toInt
  · obtain ⟨d, since, secs, nanos⟩ := durationSince_of_nonneg later
    have fits : t.secs ≠ Int64.minValue := ne_minValue_iff.mpr (by omega)
    have same : d.secs.toInt64 = t.secs :=
      Int64.toInt.inj ((toInt64_eq (by omega)).trans secs)
    rw [since, if_neg fun h => fits h.1]
    simp only [same, nanos]
    rfl
  · by_cases whole : t.nanos = 0
    · obtain ⟨d, since, secs, nanos⟩ := durationSince_of_whole (by omega) whole
      have zero : Int64.ofNat d.nanos = 0 := by rw [nanos]; rfl
      rw [since]
      by_cases earliest : t.secs = Int64.minValue
      · -- The cast wraps to the earliest second itself, which has no negation.
        have wraps : d.secs.toInt64.toInt = -2 ^ 63 := by
          rw [earliest, Int64.toInt_minValue] at secs
          rw [toInt64_toInt, secs]
          decide
        have overflows : (checked (-toInt d.secs.toInt64) : Option Int64) = none :=
          checked_eq_none.mpr (.inr (by simp only [hi, toInt]; omega))
        rw [if_pos ⟨earliest, whole⟩]
        simp only [zero, ↓reduceIte, overflows]
        rfl
      · have fits := ne_minValue_iff.mp earliest
        have same : (checked (-toInt d.secs.toInt64) : Option Int64) = some t.secs := by
          refine checked_eq_some.mpr ?_
          simp only [toInt]
          rw [toInt64_eq (by omega)]
          omega
        rw [if_neg fun h => earliest h.1]
        simp only [zero, ↓reduceIte, same]
        unfold SystemTime.pair
        rw [whole]
        rfl
    · obtain ⟨d, since, secs, nanos⟩ := durationSince_of_part (by omega) whole
      rw [since, if_neg fun h => whole h.2]
      have part : Int64.ofNat d.nanos ≠ 0 := by
        intro zero
        have := ofNat_nanos d.nanos_lt
        rw [zero, Int64.toInt_zero] at this
        unfold nanosPerSec at *
        omega
      have fits : d.secs.toInt64.toInt = d.secs.toNat := toInt64_eq (by omega)
      obtain ⟨negated, neg⟩ : ∃ negated : Int64, toInt negated = -toInt d.secs.toInt64 :=
        exists_toInt (by simp only [lo, toInt]; omega) (by simp only [hi, toInt]; omega)
      have floor : (checked (toInt negated - 1) : Option Int64) = some t.secs := by
        refine checked_eq_some.mpr ?_
        rw [neg]
        simp only [toInt]
        omega
      have rest : (checked (nanosPerSec - toInt (Int64.ofNat d.nanos)) : Option Int64) =
          some (.ofNat t.nanos) := by
        refine checked_eq_some.mpr ?_
        simp only [toInt]
        rw [ofNat_nanos d.nanos_lt, ofNat_nanos ht]
        omega
      simp only [part, ↓reduceIte, checked_eq_some.mpr neg, Option.bind_eq_bind, Option.bind_some,
        floor, rest]
      rfl

/-- `nsecs as u32`. -/
theorem nanos_toUInt32 {n : Nat} (lt : n < nanosPerSec) :
    (Int64.ofNat n).toUInt64.toUInt32.toNat = n := by
  unfold nanosPerSec at lt
  rw [Int64.toUInt64_ofNat', UInt64.toNat_toUInt32,
    UInt64.toNat_ofNat_of_lt' (by simp only [UInt64.size]; omega)]
  omega

theorem toUInt64_toNat {x : Int64} (nonneg : 0 ≤ x.toInt) : (x.toUInt64.toNat : Int) = x.toInt := by
  have nonneg : 0 ≤ x := Int64.le_iff_toInt_le.mpr nonneg
  rw [Int64.toNat_toUInt64_of_le nonneg]
  exact Int64.cast_toNatClampNeg x nonneg

theorem nonneg_iff {x : Int64} : 0 ≤ x ↔ 0 ≤ x.toInt := by
  rw [Int64.le_iff_toInt_le, Int64.toInt_zero]

/-- From the epoch on, both decoders add the duration to the epoch. -/
theorem decode_of_nonneg {t : SystemTime} (later : 0 ≤ t.secs.toInt) :
    (Duration.new t.secs.toUInt64 (Int64.ofNat t.nanos).toUInt64.toUInt32 >>= fun d =>
      unixEpoch.checkedAdd d) = some t := by
  have same := nanos_toUInt32 t.nanos_lt
  have secs := toUInt64_toNat later
  rw [Duration.new_eq (by rw [same]; exact t.nanos_lt), some_bind, SystemTime.checkedAdd_eq_some,
    unixEpoch_total]
  unfold Duration.total SystemTime.total
  simp only [toInt, same, secs]
  omega

/-- The decoder of `conv.rs` is exact, except that it negates the earliest second. -/
theorem secsNsecsToSystemTime_eq (t : SystemTime) : secsNsecsToSystemTime t.pair.1 t.pair.2 =
    if t.secs = Int64.minValue then none else some t := by
  have ge := t.secs.le_toInt
  have ht := t.nanos_lt
  unfold secsNsecsToSystemTime SystemTime.pair
  dsimp only
  by_cases later : 0 ≤ t.secs.toInt
  · have fits : t.secs ≠ Int64.minValue := ne_minValue_iff.mpr (by omega)
    rw [if_pos (nonneg_iff.mpr later), if_neg fits]
    exact decode_of_nonneg later
  · rw [if_neg (fun h => later (nonneg_iff.mp h))]
    by_cases earliest : t.secs = Int64.minValue
    · have overflows : (checked (-toInt t.secs) : Option Int64) = none := by
        refine checked_eq_none.mpr (.inr ?_)
        rw [earliest]
        decide
      rw [if_pos earliest, overflows]
      rfl
    · have fits := ne_minValue_iff.mp earliest
      obtain ⟨negated, neg⟩ : ∃ negated : Int64, toInt negated = -toInt t.secs :=
        exists_toInt (by simp only [lo, toInt]; omega) (by simp only [hi, toInt]; omega)
      have negSecs : negated.toInt = -t.secs.toInt := neg
      have secs : (negated.toUInt64.toNat : Int) = -t.secs.toInt :=
        (toUInt64_toNat (by omega)).trans negSecs
      have same := nanos_toUInt32 ht
      rw [if_neg earliest, checked_eq_some.mpr neg, some_bind, Duration.new_whole, some_bind]
      have floor : unixEpoch.checkedSub ⟨negated.toUInt64, 0, zero_lt⟩ =
          some ⟨t.secs, 0, zero_lt⟩ := by
        rw [checkedSub_eq_some, unixEpoch_total]
        unfold Duration.total SystemTime.total nanosPerSec
        simp only [toInt, secs]
        omega
      rw [floor, some_bind, Duration.new_eq (by rw [same]; exact ht), some_bind,
        SystemTime.checkedAdd_eq_some]
      unfold Duration.total SystemTime.total
      simp only [toInt, same, UInt64.toNat_zero]
      omega

theorem unsignedAbs_toNat (x : Int64) : (unsignedAbs x).toNat = x.toInt.natAbs := by
  have ge := x.le_toInt
  have lt := x.toInt_lt
  exact UInt64.toNat_ofNat_of_lt' (by simp only [UInt64.size]; omega)

/-- The decoder of `passthrough.rs` is exact. -/
theorem systemTimeFromSecs_eq (t : SystemTime) :
    systemTimeFromSecs t.pair.1 t.pair.2 = some t := by
  have ge := t.secs.le_toInt
  have ht := t.nanos_lt
  unfold systemTimeFromSecs SystemTime.pair
  dsimp only
  by_cases later : 0 ≤ t.secs.toInt
  · rw [if_pos (nonneg_iff.mpr later)]
    exact decode_of_nonneg later
  · rw [if_neg (fun h => later (nonneg_iff.mp h))]
    have abs := unsignedAbs_toNat t.secs
    by_cases whole : t.nanos = 0
    · have zero : Int64.ofNat t.nanos = 0 := by rw [whole]; rfl
      have sub : unixEpoch.checkedSub ⟨unsignedAbs t.secs, 0, zero_lt⟩ =
          some t := by
        rw [checkedSub_eq_some, unixEpoch_total]
        unfold Duration.total SystemTime.total nanosPerSec
        simp only [toInt, abs, whole]
        omega
      rw [if_pos zero, Duration.new_whole, some_bind, sub]
      rfl
    · have part : Int64.ofNat t.nanos ≠ 0 := by
        intro zero
        have same := ofNat_nanos ht
        rw [zero, Int64.toInt_zero] at same
        omega
      have same := nanos_toUInt32 ht
      obtain ⟨secs, subSecs⟩ : ∃ secs : UInt64, toInt secs = toInt (unsignedAbs t.secs) - 1 :=
        exists_toInt (by simp only [lo, toInt]; omega) (by simp only [hi, toInt]; omega)
      obtain ⟨rest, subNanos⟩ : ∃ rest : UInt32,
          toInt rest = nanosPerSec - toInt (Int64.ofNat t.nanos).toUInt64.toUInt32 :=
        exists_toInt (by simp only [lo, toInt]; omega)
          (by simp only [hi, toInt]; unfold nanosPerSec; omega)
      have small : rest.toNat < nanosPerSec := by
        simp only [toInt] at subNanos
        omega
      have sub : unixEpoch.checkedSub ⟨secs, rest.toNat, small⟩ = some t := by
        rw [checkedSub_eq_some, unixEpoch_total]
        simp only [toInt] at subSecs subNanos
        unfold Duration.total SystemTime.total nanosPerSec at *
        simp only [toInt]
        omega
      rw [if_neg part, checked_eq_some.mpr subSecs, some_bind, checked_eq_some.mpr subNanos,
        some_bind, Duration.new_eq small, some_bind, sub]
      rfl

/-! ## Where the conversions agree -/

/-- Both decoders read the pair as one time, the encoder gives the pair back, and nothing
overflows. -/
def DecodesExactly (secs nsecs : Int64) : Prop :=
  ∃ t, secsNsecsToSystemTime secs nsecs = some t ∧ systemTimeFromSecs secs nsecs = some t ∧
    t.total = secs.toInt * nanosPerSec + nsecs.toInt ∧
    systemTimeToSecsNsecs t = some (secs, nsecs)

/-- Encoding the time and decoding the pair gives the time back, and nothing overflows. -/
def EncodesExactly (t : SystemTime) : Prop :=
  ∃ secs nsecs, systemTimeToSecsNsecs t = some (secs, nsecs) ∧
    secsNsecsToSystemTime secs nsecs = some t

/-- Every pair in range is the pair of a time. -/
theorem exists_pair {secs nsecs : Int64} (nonneg : 0 ≤ nsecs) (lt : nsecs.toInt < nanosPerSec) :
    ∃ t : SystemTime, t.pair = (secs, nsecs) := by
  have nonneg := nonneg_iff.mp nonneg
  refine ⟨⟨secs, nsecs.toInt.toNat, by omega⟩, ?_⟩
  have small : nsecs.toInt.toNat < nanosPerSec := by omega
  have same : Int64.ofNat nsecs.toInt.toNat = nsecs := by
    refine Int64.toInt.inj ?_
    rw [ofNat_nanos small]
    omega
  unfold SystemTime.pair
  rw [same]

theorem pair_total (t : SystemTime) :
    t.total = t.pair.1.toInt * nanosPerSec + t.pair.2.toInt := by
  unfold SystemTime.total SystemTime.pair
  rw [ofNat_nanos t.nanos_lt]

theorem encodesExactly_iff (t : SystemTime) : EncodesExactly t ↔ t.secs ≠ Int64.minValue := by
  unfold EncodesExactly
  rw [systemTimeToSecsNsecs_eq]
  constructor
  · rintro ⟨secs, nsecs, encoded, decoded⟩ earliest
    split at encoded
    · cases encoded
    · have pair := Option.some.inj encoded
      have decode := secsNsecsToSystemTime_eq t
      rw [pair, decoded, if_pos earliest] at decode
      cases decode
  · intro fits
    refine ⟨t.pair.1, t.pair.2, if_neg fun h => fits h.1, ?_⟩
    rw [secsNsecsToSystemTime_eq, if_neg fits]

theorem decodesExactly_iff (t : SystemTime) :
    DecodesExactly t.pair.1 t.pair.2 ↔ t.secs ≠ Int64.minValue := by
  unfold DecodesExactly
  rw [secsNsecsToSystemTime_eq]
  constructor
  · rintro ⟨u, decoded, -⟩ earliest
    rw [if_pos earliest] at decoded
    cases decoded
  · intro fits
    refine ⟨t, if_neg fits, systemTimeFromSecs_eq t, pair_total t, ?_⟩
    rw [systemTimeToSecsNsecs_eq, if_neg fun h => fits h.1]

/-- Timestamps are converted exactly and without an overflow, except in the earliest second. -/
theorem timestamps_exact_iff (secs nsecs : Int64) (nonneg : 0 ≤ nsecs)
    (lt : nsecs.toInt < nanosPerSec) (t : SystemTime) :
    (DecodesExactly secs nsecs ↔ secs ≠ Int64.minValue) ∧
      (EncodesExactly t ↔ t.secs ≠ Int64.minValue) := by
  refine ⟨?_, encodesExactly_iff t⟩
  obtain ⟨s, pair⟩ := exists_pair nonneg lt
  have exact := decodesExactly_iff s
  have secsEq : s.secs = secs := congrArg Prod.fst pair
  rw [pair, secsEq] at exact
  exact exact

/-- Half a second before the epoch, and the epoch. -/
theorem half_second_before_exact : DecodesExactly (-1) 500000000 ∧ EncodesExactly unixEpoch := by
  obtain ⟨decodes, encodes⟩ := timestamps_exact_iff (-1) 500000000 (by decide) (by decide) unixEpoch
  exact ⟨decodes.mpr (by decide), encodes.mpr (by decide)⟩

/-- The earliest second, which `setattr` takes from its caller. -/
theorem earliest_second_overflows : secsNsecsToSystemTime Int64.minValue 0 = none ∧
    ¬∀ secs nsecs : Int64, 0 ≤ nsecs → nsecs.toInt < nanosPerSec → DecodesExactly secs nsecs := by
  have none : secsNsecsToSystemTime Int64.minValue 0 = none := by
    exact secsNsecsToSystemTime_eq ⟨Int64.minValue, 0, zero_lt⟩
  refine ⟨none, fun always => ?_⟩
  obtain ⟨t, decoded, -⟩ := always Int64.minValue 0 (by decide) (by decide)
  rw [none] at decoded
  cases decoded

/-! ## Where a written time is read back -/

/-- A time before the epoch is written as the epoch. -/
theorem toTimespec_eq (utimeOmit : Int64) (t : SystemTime) : toTimespec utimeOmit (some t) =
    if 0 ≤ t.secs then ⟨t.pair.1, t.pair.2⟩ else ⟨0, 0⟩ := by
  unfold toTimespec
  by_cases later : 0 ≤ t.secs.toInt
  · obtain ⟨d, since, secs, nanos⟩ := durationSince_of_nonneg later
    have lt := t.secs.toInt_lt
    have same : d.secs.toInt64 = t.secs :=
      Int64.toInt.inj ((toInt64_eq (by omega)).trans secs)
    rw [if_pos (nonneg_iff.mpr later)]
    simp only [since, same, nanos]
    rfl
  · have earlier : t.secs.toInt < 0 := by omega
    obtain ⟨d, since⟩ : ∃ d, t.durationSince unixEpoch = .error d := by
      by_cases whole : t.nanos = 0
      · obtain ⟨d, since, -⟩ := durationSince_of_whole earlier whole
        exact ⟨d, since⟩
      · obtain ⟨d, since, -⟩ := durationSince_of_part earlier whole
        exact ⟨d, since⟩
    rw [if_neg fun h => later (nonneg_iff.mp h)]
    simp only [since]
    rfl

/-- The time is written as the pair `conv.rs` encodes it to. -/
def WrittenAsEncoded (utimeOmit : Int64) (t : SystemTime) : Prop :=
  systemTimeToSecsNsecs t =
    some ((toTimespec utimeOmit (some t)).sec, (toTimespec utimeOmit (some t)).nsec)

theorem writtenAsEncoded_iff (utimeOmit : Int64) (t : SystemTime) :
    WrittenAsEncoded utimeOmit t ↔ 0 ≤ t.secs := by
  unfold WrittenAsEncoded
  rw [toTimespec_eq, systemTimeToSecsNsecs_eq]
  by_cases later : 0 ≤ t.secs
  · have fits : t.secs ≠ Int64.minValue := by
      have := nonneg_iff.mp later
      exact ne_minValue_iff.mpr (by omega)
    rw [if_pos later, if_neg fun h => fits h.1]
    simp only [later]
  · rw [if_neg later]
    simp only [later, iff_false]
    split
    · nofun
    · intro eq
      have zero : t.secs = 0 := congrArg Prod.fst (Option.some.inj eq)
      exact later (zero ▸ Int64.le_refl 0)

/-- A time decoded from the pair is written as it is encoded, and either call that writes it lets
it be read back. -/
def WrittenKept (futimens utimensat : TimesCall) (secs nsecs : Int64) : Prop :=
  ∃ t, secsNsecsToSystemTime secs nsecs = some t ∧
    WrittenAsEncoded futimens.utimeOmit t ∧ WrittenAsEncoded utimensat.utimeOmit t ∧
    ∀ path old other new,
      (utimensFd futimens old (some t) other = .ok new ∨
        utimensPath utimensat path old (some t) other = .ok new →
        systemTimeFromSecs new.atime.sec new.atime.nsec = some t) ∧
      (utimensFd futimens old other (some t) = .ok new ∨
        utimensPath utimensat path old other (some t) = .ok new →
        systemTimeFromSecs new.mtime.sec new.mtime.nsec = some t)

section Written

variable {call : TimesCall} {t : SystemTime} {old new : FileTimes} {other : Timespec}

theorem stored_atime (later : 0 ≤ t.secs)
    (stored : call.store old (toTimespec call.utimeOmit (some t)) other = .ok new) :
    systemTimeFromSecs new.atime.sec new.atime.nsec = some t := by
  rw [toTimespec_eq, if_pos later] at stored
  have nanos : t.pair.2.toInt = t.nanos := ofNat_nanos t.nanos_lt
  rw [call.sets_atime _ _ _ _ stored (nonneg_iff.mpr (by rw [nanos]; omega))
    (by rw [nanos]; exact Int.ofNat_lt.mpr t.nanos_lt)]
  exact systemTimeFromSecs_eq t

theorem stored_mtime (later : 0 ≤ t.secs)
    (stored : call.store old other (toTimespec call.utimeOmit (some t)) = .ok new) :
    systemTimeFromSecs new.mtime.sec new.mtime.nsec = some t := by
  rw [toTimespec_eq, if_pos later] at stored
  have nanos : t.pair.2.toInt = t.nanos := ofNat_nanos t.nanos_lt
  rw [call.sets_mtime _ _ _ _ stored (nonneg_iff.mpr (by rw [nanos]; omega))
    (by rw [nanos]; exact Int.ofNat_lt.mpr t.nanos_lt)]
  exact systemTimeFromSecs_eq t

end Written

theorem utimensPath_eq_ok {call : TimesCall} {path : List UInt8} {old new : FileTimes}
    {atime mtime : Option SystemTime} (ok : utimensPath call path old atime mtime = .ok new) :
    utimensFd call old atime mtime = .ok new := by
  unfold utimensPath at ok
  split at ok
  · cases ok
  · exact ok

theorem writtenKept_iff (futimens utimensat : TimesCall) (t : SystemTime) :
    WrittenKept futimens utimensat t.pair.1 t.pair.2 ↔ 0 ≤ t.secs := by
  constructor
  · rintro ⟨u, decoded, written, -⟩
    rw [secsNsecsToSystemTime_eq] at decoded
    split at decoded
    · cases decoded
    · cases decoded
      exact (writtenAsEncoded_iff _ t).mp written
  · intro later
    have fits : t.secs ≠ Int64.minValue := by
      have := nonneg_iff.mp later
      exact ne_minValue_iff.mpr (by omega)
    refine ⟨t, ?_, (writtenAsEncoded_iff _ t).mpr later, (writtenAsEncoded_iff _ t).mpr later, ?_⟩
    · rw [secsNsecsToSystemTime_eq, if_neg fits]
    · refine fun path old other new => ⟨?_, ?_⟩
      · rintro (stored | stored)
        · exact stored_atime later stored
        · exact stored_atime later (utimensPath_eq_ok stored)
      · rintro (stored | stored)
        · exact stored_mtime later stored
        · exact stored_mtime later (utimensPath_eq_ok stored)

/-- Exactly the times from the epoch on are written as they are. -/
theorem written_times_kept_iff (futimens utimensat : TimesCall) :
    (∀ t : SystemTime, WrittenAsEncoded futimens.utimeOmit t ↔ 0 ≤ t.secs) ∧
    ∀ secs nsecs : Int64, 0 ≤ nsecs → nsecs.toInt < nanosPerSec →
      (WrittenKept futimens utimensat secs nsecs ↔ 0 ≤ secs) := by
  refine ⟨writtenAsEncoded_iff futimens.utimeOmit, fun secs nsecs nonneg lt => ?_⟩
  obtain ⟨t, pair⟩ := exists_pair nonneg lt
  have kept := writtenKept_iff futimens utimensat t
  have secsEq : t.secs = secs := congrArg Prod.fst pair
  rw [pair, secsEq] at kept
  exact kept

/-- Linux's calls on a file that may be written to. -/
def linuxTimes : TimesCall where
  utimeOmit := 1073741822
  store old a m := .ok
    ⟨if a.nsec = 1073741822 then old.atime else a, if m.nsec = 1073741822 then old.mtime else m⟩
  sets_atime old new a m stored _ lt := by
    cases stored
    refine if_neg fun same => ?_
    rw [same] at lt
    exact absurd lt (by decide)
  sets_mtime old new a m stored _ lt := by
    cases stored
    refine if_neg fun same => ?_
    rw [same] at lt
    exact absurd lt (by decide)

theorem second_after_kept : WrittenKept linuxTimes linuxTimes 1 500000000 :=
  ((written_times_kept_iff linuxTimes linuxTimes).2 1 500000000 (by decide) (by decide)).mpr
    (by decide)

/-- The second before the epoch is encoded as such, written as the epoch, and read back as the
epoch. -/
theorem second_before_lost :
    systemTimeToSecsNsecs ⟨-1, 0, zero_lt⟩ = some (-1, 0) ∧
    toTimespec linuxTimes.utimeOmit (some ⟨-1, 0, zero_lt⟩) = ⟨0, 0⟩ ∧
    ¬∀ secs nsecs : Int64, 0 ≤ nsecs → nsecs.toInt < nanosPerSec →
      WrittenKept linuxTimes linuxTimes secs nsecs := by
  refine ⟨?_, ?_, fun always => ?_⟩
  · rw [systemTimeToSecsNsecs_eq]
    rfl
  · rw [toTimespec_eq]
    rfl
  · have kept := always (-1) 0 (by decide) (by decide)
    have later := (writtenKept_iff linuxTimes linuxTimes ⟨-1, 0, zero_lt⟩).mp kept
    exact absurd later (by decide)

end TypedFuse
