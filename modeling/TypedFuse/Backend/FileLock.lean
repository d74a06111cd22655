import TypedFuse.Core.Types
import TypedFuse.Lib.MachineInt

/-!
# Record locks

`to_flock` and `from_flock` of `file_lock.rs`, and the bridge of `session.rs` to libfuse's own
`flock` struct.  A `FileLock` names its last byte, with `u64::MAX` for the end of the file; a
`flock` gives a length, with zero for the end of the file.  `record_locks_biject` is that the two
say the same, each in its own range.
-/

namespace TypedFuse

open MachineInt

/-- `u64::MAX`: the last byte of a range that goes to the end of the file. -/
def FileLock.toEnd : Nat := 2 ^ 64 - 1

/-- The fields are of the width they have in Rust. -/
structure FileLock.Fits (l : FileLock) : Prop where
  start : l.start < 2 ^ 64
  stop : l.stop < 2 ^ 64
  pid : l.pid < 2 ^ 32

/-- `libc::flock`, and libfuse's struct of the same layout.  `sysid` is FreeBSD's `l_sysid`, which
the others do not have. -/
@[ext] structure Flock where
  type : Int16
  whence : Int16
  start : Int64
  len : Int64
  pid : Int32
  sysid : Int32
deriving DecidableEq, Repr

namespace Flock

/-- `std::mem::zeroed()`. -/
def zeroed : Flock := ⟨0, 0, 0, 0, 0, 0⟩

/-- The five fields every platform has. -/
def portable (r : Flock) : Int16 × Int16 × Int64 × Int64 × Int32 :=
  (r.type, r.whence, r.start, r.len, r.pid)

end Flock

/-- The constants of a platform's `fcntl.h`. -/
structure LockTypes where
  rdlck : Int16
  wrlck : Int16
  unlck : Int16
  seekSet : Int16
  rdlck_ne_wrlck : rdlck ≠ wrlck
  rdlck_ne_unlck : rdlck ≠ unlck
  wrlck_ne_unlck : wrlck ≠ unlck

namespace LockTypes

def linux : LockTypes := ⟨0, 1, 2, 0, by decide, by decide, by decide⟩

/-- macOS and FreeBSD. -/
def bsd : LockTypes := ⟨1, 3, 2, 0, by decide, by decide, by decide⟩

variable (P : LockTypes)

def ofKind : LockKind → Int16
  | .read => P.rdlck
  | .write => P.wrlck
  | .unlock => P.unlck

def toKind (type : Int16) : Option LockKind :=
  if type = P.rdlck then some .read
  else if type = P.wrlck then some .write
  else if type = P.unlck then some .unlock
  else none

end LockTypes

namespace FileLock

variable (P : LockTypes)

/-- The length of a range: zero to the end of the file, else `end - start + 1`, in `u64`. -/
def flockLen (start stop : Nat) : Except Exit Int64 :=
  if stop = toEnd then .ok 0
  else do
    let n : UInt64 ← okOr (checked (stop - start)) .EOVERFLOW
    let length : UInt64 ← okOr (checked (toInt n + 1)) .EOVERFLOW
    okOr (checked (toInt length)) .EOVERFLOW

def toFlock (l : FileLock) : Except Exit Flock :=
  if l.stop < l.start then .error (.errno .EINVAL)
  else do
    let start : Int64 ← okOr (checked l.start) .EOVERFLOW
    let len ← flockLen l.start l.stop
    let pid : Int32 ← okOr (checked l.pid) .EOVERFLOW
    .ok { Flock.zeroed with type := P.ofKind l.kind, whence := P.seekSet, start, len, pid }

/-- The last byte of a range: `start + (len - 1)` in `u64`, where the inner subtraction is a plain
one. -/
def flockStop (start len : Int64) : Except Exit Nat :=
  if len = 0 then .ok toEnd
  else do
    let n : UInt64 ← orPanic (checked (toInt len.toUInt64 - 1))
    let stop : UInt64 ← okOr (checked (toInt start.toUInt64 + toInt n)) .EINVAL
    .ok stop.toNat

def fromFlock (raw : Flock) : Except Exit FileLock :=
  if raw.whence ≠ P.seekSet ∨ raw.start < 0 ∨ raw.len < 0 then .error (.errno .EINVAL)
  else do
    let kind ← okOr (P.toKind raw.type) .EINVAL
    let stop ← flockStop raw.start raw.len
    let pid : UInt32 := (checked (toInt raw.pid)).getD 0
    .ok { kind, start := raw.start.toUInt64.toNat, stop, pid := pid.toNat }

end FileLock

namespace Session

variable (P : LockTypes)

def lockFromRaw (raw : Flock) : Except Exit FileLock :=
  FileLock.fromFlock P { Flock.zeroed with
    type := raw.type, whence := raw.whence, start := raw.start, len := raw.len, pid := raw.pid }

def lockToRaw (lock : FileLock) : Except Exit Flock :=
  FileLock.toFlock P lock >>= fun owned => .ok { Flock.zeroed with
    start := owned.start, len := owned.len, pid := owned.pid, type := owned.type,
    whence := owned.whence }

end Session

/-! ## Each conversion in integers -/

namespace FileLock

variable {P : LockTypes} {l : FileLock} {r : Flock}

/-- The length of a range as an integer. -/
def lenOf (start stop : Nat) : Int := if stop = toEnd then 0 else stop - start + 1

/-- The last byte of a range as an integer. -/
def stopOf (start len : Int) : Int := if len = 0 then toEnd else start + len - 1

/-- The length of a finite range is computed without an overflow in `u64`. -/
theorem flockLen_steps {start stop : Nat} (ordered : start ≤ stop) (below : stop < toEnd) :
    ∃ n length : UInt64, checked (stop - start : Int) = some n ∧
      checked (toInt n + 1) = some length := by
  unfold toEnd at below
  obtain ⟨n, sub⟩ : ∃ n : UInt64, toInt n = stop - start :=
    exists_toInt (by simp only [lo]; omega) (by simp only [hi]; omega)
  obtain ⟨length, add⟩ : ∃ length : UInt64, toInt length = toInt n + 1 :=
    exists_toInt (by simp only [lo]; omega) (by simp only [hi]; omega)
  exact ⟨n, length, checked_eq_some.mpr sub, checked_eq_some.mpr add⟩

/-- The length is accepted if `i64` has it. -/
theorem flockLen_eq_ok {start stop : Nat} {len : Int64} (ordered : start ≤ stop)
    (fits : stop < 2 ^ 64) : flockLen start stop = .ok len ↔ len.toInt = lenOf start stop := by
  unfold flockLen lenOf
  by_cases toEof : stop = toEnd
  · rw [if_pos toEof, if_pos toEof, Except.ok.injEq]
    constructor
    · rintro rfl
      exact Int64.toInt_zero
    · intro zero
      exact Int64.toInt.inj (Int64.toInt_zero.trans zero.symm)
  · rw [if_neg toEof, if_neg toEof]
    simp only [bind_eq_ok, okOr_eq_ok, checked_eq_some]
    constructor
    · rintro ⟨n, sub, length, add, eq⟩
      exact eq.trans (add.trans (by rw [sub]))
    · intro eq
      have below : stop < toEnd := by
        unfold toEnd at toEof ⊢
        omega
      obtain ⟨n, length, sub, add⟩ := flockLen_steps ordered below
      have sub := checked_eq_some.mp sub
      have add := checked_eq_some.mp add
      refine ⟨n, sub, length, add, ?_⟩
      rw [add, sub]
      exact eq

/-- What `to_flock` accepts, and what it gives. -/
theorem toFlock_eq_ok (fits : l.Fits) : toFlock P l = .ok r ↔
    l.start ≤ l.stop ∧ r.start.toInt = l.start ∧ r.len.toInt = lenOf l.start l.stop ∧
      r.pid.toInt = l.pid ∧ r.type = P.ofKind l.kind ∧ r.whence = P.seekSet ∧ r.sysid = 0 := by
  unfold toFlock
  by_cases ordered : l.start ≤ l.stop
  · rw [if_neg (Nat.not_lt.mpr ordered)]
    simp only [bind_eq_ok, okOr_eq_ok, checked_eq_some, flockLen_eq_ok ordered fits.stop,
      Except.ok.injEq]
    constructor
    · rintro ⟨start, hstart, len, hlen, pid, hpid, rfl⟩
      exact ⟨ordered, hstart, hlen, hpid, rfl, rfl, rfl⟩
    · rintro ⟨-, hstart, hlen, hpid, htype, hwhence, hsysid⟩
      refine ⟨r.start, hstart, r.len, hlen, r.pid, hpid, ?_⟩
      ext1
      · exact htype.symm
      · exact hwhence.symm
      · rfl
      · rfl
      · rfl
      · exact hsysid.symm
  · rw [if_pos (Nat.lt_of_not_le ordered)]
    constructor
    · nofun
    · exact fun h => absurd h.1 ordered

theorem toUInt64_eq {x : Int64} (nonneg : 0 ≤ x.toInt) : (x.toUInt64.toNat : Int) = x.toInt := by
  have nonneg : 0 ≤ x := Int64.le_iff_toInt_le.mpr nonneg
  rw [Int64.toNat_toUInt64_of_le nonneg]
  exact Int64.cast_toNatClampNeg x nonneg

/-- The last byte of a finite range is computed without an overflow in `u64`. -/
theorem flockStop_steps {start len : Int64} (hstart : 0 ≤ start.toInt) (hlen : 0 < len.toInt) :
    ∃ n stop : UInt64, checked (toInt len.toUInt64 - 1) = some n ∧
      checked (toInt start.toUInt64 + toInt n) = some stop := by
  have startEq := toUInt64_eq hstart
  have lenEq := toUInt64_eq (Int.le_of_lt hlen)
  have startLt := start.toInt_lt
  have lenLt := len.toInt_lt
  obtain ⟨n, sub⟩ : ∃ n : UInt64, toInt n = toInt len.toUInt64 - 1 :=
    exists_toInt (by simp only [lo, toInt]; omega) (by simp only [hi, toInt]; omega)
  obtain ⟨stop, add⟩ : ∃ stop : UInt64, toInt stop = toInt start.toUInt64 + toInt n := by
    refine exists_toInt ?_ ?_
    · simp only [lo, toInt]
      omega
    · simp only [hi, toInt] at sub ⊢
      omega
  exact ⟨n, stop, checked_eq_some.mpr sub, checked_eq_some.mpr add⟩

theorem flockStop_eq_ok {start len : Int64} {stop : Nat} (hstart : 0 ≤ start.toInt)
    (hlen : 0 ≤ len.toInt) :
    flockStop start len = .ok stop ↔ (stop : Int) = stopOf start.toInt len.toInt := by
  unfold flockStop stopOf
  by_cases zero : len.toInt = 0
  · have zero' : len = 0 := Int64.toInt.inj (zero.trans Int64.toInt_zero.symm)
    rw [if_pos zero', if_pos zero, Except.ok.injEq]
    omega
  · have zero' : ¬len = 0 := fun eq => zero (eq ▸ Int64.toInt_zero)
    rw [if_neg zero', if_neg zero]
    have startEq := toUInt64_eq hstart
    have lenEq := toUInt64_eq hlen
    simp only [bind_eq_ok, okOr_eq_ok, orPanic_eq_ok, checked_eq_some, Except.ok.injEq]
    constructor
    · rintro ⟨n, sub, last, add, rfl⟩
      simp only [toInt] at sub add
      omega
    · intro eq
      have positive : 0 < len.toInt := by omega
      obtain ⟨n, last, sub, add⟩ := flockStop_steps hstart positive
      have sub := checked_eq_some.mp sub
      have add := checked_eq_some.mp add
      refine ⟨n, sub, last, add, ?_⟩
      simp only [toInt] at sub add
      omega

theorem toKind_ofKind (kind : LockKind) : P.toKind (P.ofKind kind) = some kind := by
  cases kind with
  | read => exact if_pos rfl
  | write =>
      unfold LockTypes.toKind LockTypes.ofKind
      rw [if_neg P.rdlck_ne_wrlck.symm, if_pos rfl]
  | unlock =>
      unfold LockTypes.toKind LockTypes.ofKind
      rw [if_neg P.rdlck_ne_unlck.symm, if_neg P.wrlck_ne_unlck.symm, if_pos rfl]

theorem toKind_eq_some {type : Int16} {kind : LockKind} :
    P.toKind type = some kind ↔ type = P.ofKind kind := by
  constructor
  · intro known
    unfold LockTypes.toKind at known
    split at known
    · cases known
      assumption
    · split at known
      · cases known
        assumption
      · split at known
        · cases known
          assumption
        · cases known
  · rintro rfl
    exact toKind_ofKind kind

/-- A negative process id is read as zero. -/
theorem pidOf_eq (pid : Int32) :
    ((((checked (toInt pid) : Option UInt32).getD 0).toNat : Nat) : Int) = max pid.toInt 0 := by
  have below := pid.toInt_lt
  cases eq : (checked (toInt pid) : Option UInt32) with
  | none =>
      have := checked_eq_none.mp eq
      simp only [lo, hi, toInt] at this
      rw [Option.getD_none, UInt32.toNat_zero]
      omega
  | some n =>
      have := checked_eq_some.mp eq
      simp only [toInt] at this
      rw [Option.getD_some]
      omega

/-- What `from_flock` accepts, and what it gives. -/
theorem fromFlock_eq_ok : fromFlock P r = .ok l ↔
    r.whence = P.seekSet ∧ 0 ≤ r.start.toInt ∧ 0 ≤ r.len.toInt ∧ r.type = P.ofKind l.kind ∧
      l.start = r.start.toInt ∧ l.stop = stopOf r.start.toInt r.len.toInt ∧
      l.pid = max r.pid.toInt 0 := by
  unfold fromFlock
  by_cases known : r.whence = P.seekSet ∧ 0 ≤ r.start.toInt ∧ 0 ≤ r.len.toInt
  · obtain ⟨whence, hstart, hlen⟩ := known
    have accepted : ¬(r.whence ≠ P.seekSet ∨ r.start < 0 ∨ r.len < 0) := by
      rw [Int64.lt_iff_toInt_lt, Int64.lt_iff_toInt_lt, Int64.toInt_zero]
      rintro (other | negative | negative)
      · exact other whence
      · omega
      · omega
    have startEq := toUInt64_eq hstart
    have pidEq := pidOf_eq r.pid
    rw [if_neg accepted]
    simp only [bind_eq_ok, okOr_eq_ok, toKind_eq_some, flockStop_eq_ok hstart hlen,
      Except.ok.injEq]
    constructor
    · rintro ⟨kind, type, stop, eq, rfl⟩
      exact ⟨whence, hstart, hlen, type, startEq, eq, pidEq⟩
    · rintro ⟨-, -, -, type, hl, eq, pid⟩
      refine ⟨l.kind, type, l.stop, eq, ?_⟩
      have start : r.start.toUInt64.toNat = l.start := by omega
      have pid : ((checked (toInt r.pid) : Option UInt32).getD 0).toNat = l.pid := by omega
      rw [start, pid]
  · have refused : r.whence ≠ P.seekSet ∨ r.start < 0 ∨ r.len < 0 := by
      rw [Int64.lt_iff_toInt_lt, Int64.lt_iff_toInt_lt, Int64.toInt_zero]
      by_cases whence : r.whence = P.seekSet
      · refine .inr ?_
        have : ¬(0 ≤ r.start.toInt ∧ 0 ≤ r.len.toInt) := fun ranges => known ⟨whence, ranges⟩
        omega
      · exact .inl whence
    rw [if_pos refused]
    constructor
    · nofun
    · exact fun h => absurd ⟨h.1, h.2.1, h.2.2.1⟩ known

end FileLock

/-! ## The two directions -/

/-- The pair converts record locks both ways without losing anything, in the ranges their types
have. -/
structure LockCodec (P : LockTypes) (encode : FileLock → Except Exit Flock)
    (decode : Flock → Except Exit FileLock) : Prop where
  encodes : ∀ l : FileLock, l.Fits → ((∃ r, encode l = .ok r) ↔
    l.start ≤ l.stop ∧ l.start ≤ 2 ^ 63 - 1 ∧ l.pid ≤ 2 ^ 31 - 1 ∧
      (l.stop = FileLock.toEnd ∨ l.stop - l.start + 1 ≤ 2 ^ 63 - 1))
  decodes : ∀ r, (∃ l, decode r = .ok l) ↔
    r.whence = P.seekSet ∧ 0 ≤ r.start ∧ 0 ≤ r.len ∧
      (r.type = P.rdlck ∨ r.type = P.wrlck ∨ r.type = P.unlck)
  decode_encode : ∀ l r, l.Fits → encode l = .ok r → decode r = .ok l
  encode_decode : ∀ r l, 0 ≤ r.pid → decode r = .ok l →
    ∃ r', encode l = .ok r' ∧ r'.portable = r.portable
  decode_fits : ∀ r l, decode r = .ok l → l.Fits
  encode_total : ∀ l, encode l ≠ .error .panic
  decode_total : ∀ r, decode r ≠ .error .panic
  encode_toEnd : ∀ l r, l.Fits → encode l = .ok r → (r.len = 0 ↔ l.stop = FileLock.toEnd)
  decode_toEnd : ∀ r l, decode r = .ok l → (l.stop = FileLock.toEnd ↔ r.len = 0)

namespace FileLock

variable {P : LockTypes} {l : FileLock} {r : Flock}

theorem toEnd_eq : toEnd = 18446744073709551615 := rfl

theorem exists_int64 {n : Int} (le : -2 ^ 63 ≤ n) (lt : n < 2 ^ 63) : ∃ x : Int64, x.toInt = n :=
  exists_toInt le lt

theorem toFlock_accepts (fits : l.Fits) : (∃ r, toFlock P l = .ok r) ↔
    l.start ≤ l.stop ∧ l.start ≤ 2 ^ 63 - 1 ∧ l.pid ≤ 2 ^ 31 - 1 ∧
      (l.stop = toEnd ∨ l.stop - l.start + 1 ≤ 2 ^ 63 - 1) := by
  constructor
  · rintro ⟨r, ok⟩
    obtain ⟨ordered, hstart, hlen, hpid, -⟩ := (toFlock_eq_ok fits).mp ok
    have startLt := r.start.toInt_lt
    have lenLt := r.len.toInt_lt
    have pidLt := r.pid.toInt_lt
    unfold lenOf at hlen
    refine ⟨ordered, by omega, by omega, ?_⟩
    split at hlen
    · exact .inl ‹_›
    · exact .inr (by omega)
  · rintro ⟨ordered, hstart, hpid, hlen⟩
    obtain ⟨start, startEq⟩ : ∃ x : Int64, x.toInt = l.start :=
      exists_int64 (by omega) (by omega)
    obtain ⟨len, lenEq⟩ : ∃ x : Int64, x.toInt = lenOf l.start l.stop := by
      unfold lenOf
      split
      · exact ⟨0, Int64.toInt_zero⟩
      · exact exists_int64 (by omega) (by omega)
    obtain ⟨pid, pidEq⟩ : ∃ x : Int32, x.toInt = l.pid :=
      exists_toInt (by simp only [lo]; omega) (by simp only [hi]; omega)
    exact ⟨⟨P.ofKind l.kind, P.seekSet, start, len, pid, 0⟩,
      (toFlock_eq_ok fits).mpr ⟨ordered, startEq, lenEq, pidEq, rfl, rfl, rfl⟩⟩

theorem ofKind_cases {type : Int16} : (∃ kind, type = P.ofKind kind) ↔
    type = P.rdlck ∨ type = P.wrlck ∨ type = P.unlck := by
  constructor
  · rintro ⟨kind, rfl⟩
    cases kind with
    | read => exact .inl rfl
    | write => exact .inr (.inl rfl)
    | unlock => exact .inr (.inr rfl)
  · rintro (rfl | rfl | rfl)
    · exact ⟨.read, rfl⟩
    · exact ⟨.write, rfl⟩
    · exact ⟨.unlock, rfl⟩

theorem stopOf_nonneg {start len : Int} (hstart : 0 ≤ start) (hlen : 0 ≤ len) :
    0 ≤ stopOf start len := by
  unfold stopOf
  split <;> omega

theorem fromFlock_accepts : (∃ l, fromFlock P r = .ok l) ↔
    r.whence = P.seekSet ∧ 0 ≤ r.start ∧ 0 ≤ r.len ∧
      (r.type = P.rdlck ∨ r.type = P.wrlck ∨ r.type = P.unlck) := by
  rw [Int64.le_iff_toInt_le, Int64.le_iff_toInt_le, Int64.toInt_zero, ← ofKind_cases]
  constructor
  · rintro ⟨l, ok⟩
    obtain ⟨whence, hstart, hlen, type, -⟩ := fromFlock_eq_ok.mp ok
    exact ⟨whence, hstart, hlen, l.kind, type⟩
  · rintro ⟨whence, hstart, hlen, kind, type⟩
    have hstop := stopOf_nonneg hstart hlen
    refine ⟨⟨kind, r.start.toInt.toNat, (stopOf r.start.toInt r.len.toInt).toNat,
      (max r.pid.toInt 0).toNat⟩, fromFlock_eq_ok.mpr ⟨whence, hstart, hlen, type, ?_, ?_, ?_⟩⟩
    · exact Int.toNat_of_nonneg hstart
    · exact Int.toNat_of_nonneg hstop
    · exact Int.toNat_of_nonneg (by omega)

theorem fromFlock_toFlock (fits : l.Fits) (ok : toFlock P l = .ok r) : fromFlock P r = .ok l := by
  obtain ⟨ordered, hstart, hlen, hpid, type, whence, -⟩ := (toFlock_eq_ok fits).mp ok
  have lenLt := r.len.toInt_lt
  have := fits.stop
  unfold lenOf at hlen
  refine fromFlock_eq_ok.mpr ⟨whence, by omega, ?_, type, hstart.symm, ?_, by omega⟩
  · split at hlen <;> omega
  · unfold stopOf
    split at hlen
    · rename_i toEof
      rw [if_pos hlen, toEof]
    · rw [if_neg (by omega)]
      omega

theorem fromFlock_fits (ok : fromFlock P r = .ok l) : l.Fits := by
  obtain ⟨-, hstart, hlen, -, start, stop, pid⟩ := fromFlock_eq_ok.mp ok
  have startLt := r.start.toInt_lt
  have lenLt := r.len.toInt_lt
  have pidLt := r.pid.toInt_lt
  unfold stopOf at stop
  rw [toEnd_eq] at stop
  refine ⟨by omega, ?_, by omega⟩
  split at stop <;> omega

theorem fromFlock_toEnd (ok : fromFlock P r = .ok l) : l.stop = toEnd ↔ r.len.toInt = 0 := by
  obtain ⟨-, hstart, hlen, -, start, stop, -⟩ := fromFlock_eq_ok.mp ok
  have startLt := r.start.toInt_lt
  have lenLt := r.len.toInt_lt
  unfold stopOf at stop
  rw [toEnd_eq] at stop ⊢
  split at stop <;> omega

theorem toFlock_fromFlock (pid : 0 ≤ r.pid) (ok : fromFlock P r = .ok l) :
    toFlock P l = .ok { r with sysid := 0 } := by
  have fits := fromFlock_fits ok
  have toEof := fromFlock_toEnd ok
  obtain ⟨whence, hstart, hlen, type, start, stop, hpid⟩ := fromFlock_eq_ok.mp ok
  have pid : 0 ≤ r.pid.toInt := Int32.le_iff_toInt_le.mp pid
  have range := fits.stop
  unfold stopOf at stop
  rw [toEnd_eq] at stop
  refine (toFlock_eq_ok fits).mpr ⟨?_, start.symm, ?_, ?_, type, whence, rfl⟩
  · have startLt := r.start.toInt_lt
    split at stop <;> omega
  · dsimp only
    unfold lenOf
    split
    · exact toEof.mp ‹_›
    · rw [if_neg (fun zero => ‹¬l.stop = toEnd› (toEof.mpr zero))] at stop
      omega
  · dsimp only
    omega

theorem toFlock_toEnd (fits : l.Fits) (ok : toFlock P l = .ok r) :
    r.len.toInt = 0 ↔ l.stop = toEnd :=
  (fromFlock_toEnd (fromFlock_toFlock fits ok)).symm

theorem int64_eq_zero {x : Int64} : x = 0 ↔ x.toInt = 0 := by
  constructor
  · rintro rfl
    exact Int64.toInt_zero
  · exact fun zero => Int64.toInt.inj (zero.trans Int64.toInt_zero.symm)

theorem toFlock_ne_panic : toFlock P l ≠ .error .panic := by
  unfold toFlock
  split
  · nofun
  · refine bind_ne_panic okOr_ne_panic fun start _ => bind_ne_panic ?_ fun len _ => ?_
    · unfold flockLen
      split
      · nofun
      · refine bind_ne_panic okOr_ne_panic fun n _ => ?_
        exact bind_ne_panic okOr_ne_panic fun length _ => okOr_ne_panic
    · exact bind_ne_panic okOr_ne_panic fun pid _ => nofun

theorem fromFlock_ne_panic : fromFlock P r ≠ .error .panic := by
  unfold fromFlock
  split
  · nofun
  · rename_i accepted
    refine bind_ne_panic okOr_ne_panic fun kind _ => bind_ne_panic ?_ fun stop _ => nofun
    rw [Int64.lt_iff_toInt_lt, Int64.lt_iff_toInt_lt, Int64.toInt_zero] at accepted
    have hstart : 0 ≤ r.start.toInt := Int.not_lt.mp fun lt => accepted (.inr (.inl lt))
    have hlen : 0 ≤ r.len.toInt := Int.not_lt.mp fun lt => accepted (.inr (.inr lt))
    have hstop := Int.toNat_of_nonneg (stopOf_nonneg hstart hlen)
    rw [(flockStop_eq_ok hstart hlen).mpr hstop]
    nofun

theorem codec (P : LockTypes) : LockCodec P (toFlock P) (fromFlock P) where
  encodes _ fits := toFlock_accepts fits
  decodes _ := fromFlock_accepts
  decode_encode _ _ fits ok := fromFlock_toFlock fits ok
  encode_decode _ _ pid ok := ⟨_, toFlock_fromFlock pid ok, rfl⟩
  decode_fits _ _ ok := fromFlock_fits ok
  encode_total _ := toFlock_ne_panic
  decode_total _ := fromFlock_ne_panic
  encode_toEnd _ _ fits ok := int64_eq_zero.trans (toFlock_toEnd fits ok)
  decode_toEnd _ _ ok := (fromFlock_toEnd ok).trans int64_eq_zero.symm

end FileLock

namespace Session

variable {P : LockTypes} {l : FileLock} {r : Flock}

/-- The bridge drops only `l_sysid`, which `from_flock` does not read. -/
theorem lockFromRaw_eq : lockFromRaw P r = FileLock.fromFlock P r := rfl

/-- The bridge drops only `l_sysid`, which `to_flock` leaves at zero. -/
theorem lockToRaw_eq : lockToRaw P l = FileLock.toFlock P l := by
  unfold lockToRaw FileLock.toFlock
  split
  · rfl
  · cases okOr (checked l.start : Option Int64) .EOVERFLOW with
    | error e => rfl
    | ok start =>
        cases FileLock.flockLen l.start l.stop with
        | error e => rfl
        | ok len =>
            cases okOr (checked l.pid : Option Int32) .EOVERFLOW with
            | error e => rfl
            | ok pid => rfl

end Session

/-- Record locks convert both ways without losing anything, in `file_lock.rs` and in the session,
and no step of it overflows in `u64`. -/
theorem record_locks_biject (P : LockTypes) :
    LockCodec P (FileLock.toFlock P) (FileLock.fromFlock P) ∧
      LockCodec P (Session.lockToRaw P) (Session.lockFromRaw P) ∧
      (∀ start stop : Nat, start ≤ stop → stop < FileLock.toEnd →
        ∃ n length : UInt64, checked (stop - start : Int) = some n ∧
          checked (toInt n + 1) = some length) ∧
      ∀ start len : Int64, 0 ≤ start → 0 < len →
        ∃ n stop : UInt64, checked (toInt len.toUInt64 - 1) = some n ∧
          checked (toInt start.toUInt64 + toInt n) = some stop := by
  have codec := FileLock.codec P
  refine ⟨codec, ?_, fun _ _ => FileLock.flockLen_steps, fun start len hstart hlen => ?_⟩
  case refine_2 =>
      refine FileLock.flockStop_steps ?_ ?_
      · simpa [Int64.le_iff_toInt_le] using hstart
      · simpa [Int64.lt_iff_toInt_lt] using hlen
  have toRaw : Session.lockToRaw P = FileLock.toFlock P := funext fun _ => Session.lockToRaw_eq
  have fromRaw : Session.lockFromRaw P = FileLock.fromFlock P :=
    funext fun _ => Session.lockFromRaw_eq
  rw [toRaw, fromRaw]
  exact codec

example : FileLock.toFlock .linux ⟨.write, 7, 16, 12⟩ = .ok ⟨1, 0, 7, 10, 12, 0⟩ ∧
    FileLock.toFlock .bsd ⟨.unlock, 7, FileLock.toEnd, 12⟩ = .ok ⟨2, 0, 7, 0, 12, 0⟩ := by decide

end TypedFuse
