import TypedFuse.Core.Types
import TypedFuse.Lib.MachineInt

/-!
# Extended attributes on FreeBSD

The attribute lists of `freebsd_xattr` in `passthrough.rs`.  The kernel lists the names of one
namespace as entries of a length byte and that many bytes; `decode_list` turns them into the
NUL-terminated names that the rest of the crate expects, each with the prefix of its namespace.

`attribute_list_decoded` is that the decoder accepts exactly the kernel's format, and that the names
come out of `listxattr_names_nofollow` as they went in.
-/

namespace TypedFuse.Xattr

open MachineInt

/-- A byte slice, which has at most `isize::MAX` bytes. -/
structure Slice where
  bytes : List UInt8
  fits : bytes.length < 2 ^ 63

/-- `EXTATTR_NAMESPACE_USER` and `EXTATTR_NAMESPACE_SYSTEM`. -/
inductive Namespace
  | user
  | system
deriving DecidableEq, Repr

/-- The bytes of `user.`. -/
def userPrefix : List UInt8 := [117, 115, 101, 114, 46]

/-- The bytes of `system.`. -/
def systemPrefix : List UInt8 := [115, 121, 115, 116, 101, 109, 46]

/-- `<[u8]>::strip_prefix`. -/
def stripPrefix : List UInt8 → List UInt8 → Option (List UInt8)
  | name, [] => some name
  | [], _ :: _ => none
  | b :: name, c :: pre => if b = c then stripPrefix name pre else none

/-- `CString::new` refuses a NUL byte. -/
def cString (bytes : List UInt8) : Except Errno (List UInt8) :=
  if 0 ∈ bytes then .error .EINVAL else .ok bytes

def splitNamespace (name : List UInt8) : Except Errno (Namespace × List UInt8) :=
  let named (ns : Namespace) (bare : List UInt8) : Except Errno (Namespace × List UInt8) :=
    if bare = [] then .error .EOPNOTSUPP else (cString bare).map (ns, ·)
  match stripPrefix name userPrefix with
  | some rest => named .user rest
  | none =>
    match stripPrefix name systemPrefix with
    | some rest => named .system rest
    | none => .error .EOPNOTSUPP

/-- `&raw[i..stop]`, which panics out of range. -/
def slice (raw : List UInt8) (i stop : Nat) : Option (List UInt8) :=
  if i ≤ stop ∧ stop ≤ raw.length then some ((raw.drop i).take (stop - i)) else none

/-- The entry of `decode_list` at index `i`, and where the next one starts.  Indexing out of range
is a panic. -/
def entryAt (raw : List UInt8) (i : Nat) : Except Exit (List UInt8 × Nat) := do
  let len ← orPanic raw[i]?
  let stop : UInt64 ← okOr (checked ((i + 1 : Nat) + (len.toNat : Int))) Errno.EIO
  if raw.length < stop.toNat then .error (.errno Errno.EIO)
  else
    let name ← orPanic (slice raw (i + 1) stop.toNat)
    .ok (name, stop.toNat)

theorem entryAt_lt {raw name : List UInt8} {i stop : Nat}
    (entry : entryAt raw i = .ok (name, stop)) : i < stop := by
  unfold entryAt at entry
  obtain ⟨len, -, entry⟩ := bind_eq_ok.mp entry
  obtain ⟨last, add, entry⟩ := bind_eq_ok.mp entry
  have add := checked_eq_some.mp (okOr_eq_ok.mp add)
  split at entry
  · cases entry
  · obtain ⟨name', -, entry⟩ := bind_eq_ok.mp entry
    cases entry
    simp only [toInt] at add
    omega

/-- The loop of `decode_list` from index `i` on, with what it has written to `out`. -/
def decodeLoop (raw pre : List UInt8) (i : Nat) (out : List UInt8) :
    Except Exit Unit × List UInt8 :=
  if i < raw.length then
    match entry : entryAt raw i with
    | .error e => (.error e, out)
    | .ok (name, stop) => decodeLoop raw pre stop (out ++ pre ++ name ++ [0])
  else (.ok (), out)
termination_by raw.length - i
decreasing_by
  have := entryAt_lt entry
  omega

def decodeList (raw : Slice) (pre out : List UInt8) : Except Exit Unit × List UInt8 :=
  decodeLoop raw.bytes pre 0 out

/-- `append_namespace`.  `attrs` is what `extattr_list_link` answers, the same for the call that asks
for the size and the one that reads. -/
def appendNamespace (attrs : Except Errno Slice) (pre out : List UInt8) :
    Except Exit Unit × List UInt8 :=
  match attrs with
  | .error e => (.error (.errno e), out)
  | .ok raw => if raw.bytes.length = 0 then (.ok (), out) else decodeList raw pre out

/-- `listxattr`: the length of the encoding, and the buffer after it. -/
def listxattr (attrs : Except Errno Slice) (buf : List Int8) : Except Exit (Nat × List Int8) :=
  match appendNamespace attrs userPrefix [] with
  | (.error e, _) => .error e
  | (.ok (), names) =>
    if buf = [] then .ok (names.length, buf)
    else if buf.length < names.length then .error (.errno .ERANGE)
    else .ok (names.length, names.map UInt8.toInt8 ++ buf.drop names.length)

def listxattrNamesNofollow (attrs : Except Errno Slice) : Except Exit (List (List UInt8)) := do
  let (size, _) ← listxattr attrs []
  let (len, buf) ← listxattr attrs (List.replicate size 0)
  .ok ((((buf.take len).splitOn 0).filter (· ≠ [])).map (List.map Int8.toUInt8))

/-! ## The format -/

/-- Entries of a length byte and that many bytes. -/
def encodeList (names : List (List UInt8)) : List UInt8 :=
  names.flatMap fun name => UInt8.ofNat name.length :: name

/-- NUL-terminated names with a prefix. -/
def terminated (pre : List UInt8) (names : List (List UInt8)) : List UInt8 :=
  names.flatMap fun name => pre ++ name ++ [0]

/-- The names a byte has room for the length of. -/
def Short (names : List (List UInt8)) : Prop := ∀ name ∈ names, name.length ≤ 255

theorem length_ofNat {name : List UInt8} (short : name.length ≤ 255) :
    (UInt8.ofNat name.length).toNat = name.length :=
  UInt8.toNat_ofNat_of_lt' (by simp only [UInt8.size]; omega)

theorem drop_eq_cons {raw rest : List UInt8} {b : UInt8} {i : Nat}
    (here : raw.drop i = b :: rest) :
    raw[i]? = some b ∧ raw.drop (i + 1) = rest ∧ raw.length = i + 1 + rest.length := by
  have byte : (raw.drop i)[0]? = some b := by rw [here]; rfl
  have tail : (raw.drop i).tail = rest := by rw [here]; rfl
  have length : (raw.drop i).length = rest.length + 1 := by rw [here]; rfl
  rw [List.getElem?_drop, Nat.add_zero] at byte
  rw [List.tail_drop] at tail
  rw [List.length_drop] at length
  exact ⟨byte, tail, by omega⟩

theorem exists_cons {raw : List UInt8} {i : Nat} (lt : i < raw.length) :
    ∃ b rest, raw.drop i = b :: rest :=
  ⟨raw[i], raw.drop (i + 1), List.drop_eq_getElem_cons lt⟩

section Entries

variable {raw rest : List UInt8} {len : UInt8} {i : Nat}

/-- The end of an entry is computed without an overflow. -/
theorem exists_stop (fits : raw.length < 2 ^ 63) (here : raw.drop i = len :: rest) :
    ∃ stop : UInt64, checked ((i + 1 : Nat) + (len.toNat : Int)) = some stop ∧
      stop.toNat = i + 1 + len.toNat := by
  obtain ⟨-, -, length⟩ := drop_eq_cons here
  have small := len.toNat_lt
  obtain ⟨stop, eq⟩ : ∃ stop : UInt64, toInt stop = (i + 1 : Nat) + (len.toNat : Int) :=
    exists_toInt (by simp only [lo]; omega) (by simp only [hi]; omega)
  refine ⟨stop, checked_eq_some.mpr eq, ?_⟩
  simp only [toInt] at eq
  omega

/-- An entry that fits is read whole. -/
theorem entryAt_inside (fits : raw.length < 2 ^ 63) (here : raw.drop i = len :: rest)
    (inside : len.toNat ≤ rest.length) :
    entryAt raw i = .ok (rest.take len.toNat, i + 1 + len.toNat) := by
  obtain ⟨byte, tail, length⟩ := drop_eq_cons here
  obtain ⟨stop, add, eq⟩ := exists_stop fits here
  have name : slice raw (i + 1) stop.toNat = some (rest.take len.toNat) := by
    unfold slice
    rw [if_pos (by omega), tail, eq, Nat.add_sub_cancel_left]
  have bounds : ¬raw.length < stop.toNat := by omega
  unfold entryAt
  refine bind_eq_ok.mpr ⟨len, orPanic_eq_ok.mpr byte, ?_⟩
  refine bind_eq_ok.mpr ⟨stop, okOr_eq_ok.mpr add, ?_⟩
  rw [if_neg bounds, ← eq]
  exact bind_eq_ok.mpr ⟨_, orPanic_eq_ok.mpr name, rfl⟩

/-- An entry that runs past the end is refused. -/
theorem entryAt_outside (fits : raw.length < 2 ^ 63) (here : raw.drop i = len :: rest)
    (outside : rest.length < len.toNat) : entryAt raw i = .error (.errno Errno.EIO) := by
  obtain ⟨byte, -, length⟩ := drop_eq_cons here
  obtain ⟨stop, add, eq⟩ := exists_stop fits here
  have bounds : raw.length < stop.toNat := by omega
  unfold entryAt
  rw [orPanic_eq_ok.mpr byte, ok_bind, okOr_eq_ok.mpr add, ok_bind, if_pos bounds]

end Entries

theorem encodeList_cons {name : List UInt8} {names : List (List UInt8)} :
    encodeList (name :: names) = UInt8.ofNat name.length :: (name ++ encodeList names) := rfl

/-- The entries of a list that starts with an entry. -/
theorem encodeList_eq_cons {names : List (List UInt8)} {len : UInt8} {rest : List UInt8}
    (short : Short names) (eq : len :: rest = encodeList names) :
    ∃ name names', names = name :: names' ∧ len.toNat = name.length ∧
      rest = name ++ encodeList names' := by
  cases names with
  | nil => cases eq
  | cons name names =>
      rw [encodeList_cons, List.cons.injEq] at eq
      refine ⟨name, names, rfl, ?_, eq.2⟩
      rw [eq.1]
      exact length_ofNat (short name List.mem_cons_self)

/-- The loop reads the entries that are left, or refuses them. -/
theorem decodeLoop_spec {raw : List UInt8} (fits : raw.length < 2 ^ 63) (pre : List UInt8) (i : Nat)
    (out : List UInt8) :
    (∃ names, Short names ∧ raw.drop i = encodeList names ∧
      decodeLoop raw pre i out = (.ok (), out ++ terminated pre names)) ∨
    ((¬∃ names, Short names ∧ raw.drop i = encodeList names) ∧
      ∃ out', decodeLoop raw pre i out = (.error (.errno Errno.EIO), out')) := by
  fun_induction decodeLoop raw pre i out with
  | case1 i out lt e entry =>
      obtain ⟨len, rest, here⟩ := exists_cons lt
      by_cases inside : len.toNat ≤ rest.length
      · rw [entryAt_inside fits here inside] at entry
        cases entry
      · have outside : rest.length < len.toNat := Nat.lt_of_not_le inside
        rw [entryAt_outside fits here outside] at entry
        cases entry
        refine .inr ⟨?_, out, rfl⟩
        rintro ⟨names, short, eq⟩
        obtain ⟨name, names', -, length, restEq⟩ := encodeList_eq_cons short (here ▸ eq)
        rw [restEq, List.length_append] at outside
        omega
  | case2 i out lt name stop entry ih =>
      obtain ⟨len, rest, here⟩ := exists_cons lt
      by_cases inside : len.toNat ≤ rest.length
      · rw [entryAt_inside fits here inside] at entry
        cases entry
        have next : raw.drop (i + 1 + len.toNat) = rest.drop len.toNat := by
          rw [← List.drop_drop, (drop_eq_cons here).2.1]
        rw [next] at ih
        rcases ih with ⟨names, short, eq, done⟩ | ⟨none, out', refused⟩
        · refine .inl ⟨rest.take len.toNat :: names, ?_, ?_, ?_⟩
          · rintro name (_ | ⟨_, mem⟩)
            · have := len.toNat_lt
              rw [List.length_take]
              omega
            · exact short name mem
          · have length : (rest.take len.toNat).length = len.toNat := by
              rw [List.length_take]
              omega
            rw [encodeList_cons, length, ← eq, List.take_append_drop, here]
            simp
          · rw [done]
            simp [terminated]
        · refine .inr ⟨?_, out', refused⟩
          rintro ⟨names, short, eq⟩
          obtain ⟨name, names', rfl, length, restEq⟩ := encodeList_eq_cons short (here ▸ eq)
          refine none ⟨names', fun name' mem => short name' (List.mem_cons_of_mem _ mem), ?_⟩
          rw [restEq, length, List.drop_left]
      · rw [entryAt_outside fits here (Nat.lt_of_not_le inside)] at entry
        cases entry
  | case3 i out ge =>
      have done : raw.drop i = [] := List.drop_eq_nil_of_le (Nat.le_of_not_lt ge)
      refine .inl ⟨[], nofun, done, ?_⟩
      simp [terminated]

theorem encodeList_inj {names names' : List (List UInt8)} (short : Short names)
    (short' : Short names') (eq : encodeList names = encodeList names') : names = names' := by
  induction names generalizing names' with
  | nil =>
      cases names' with
      | nil => rfl
      | cons name' names' => cases eq
  | cons name names ih =>
      rw [encodeList_cons] at eq
      obtain ⟨name', rest', rfl, length, restEq⟩ := encodeList_eq_cons short' eq
      rw [length_ofNat (short name List.mem_cons_self)] at length
      obtain ⟨rfl, tail⟩ := List.append_inj restEq length
      have short : Short names := fun name mem => short name (List.mem_cons_of_mem _ mem)
      have short' : Short rest' := fun name mem => short' name (List.mem_cons_of_mem _ mem)
      rw [ih short short' tail]

/-- The decoder gives the names of an encoded list. -/
theorem decodeList_encodeList {raw : Slice} {names : List (List UInt8)} (short : Short names)
    (eq : raw.bytes = encodeList names) (pre out : List UInt8) :
    decodeList raw pre out = (.ok (), out ++ terminated pre names) := by
  rcases decodeLoop_spec raw.fits pre 0 out with ⟨names', short', eq', done⟩ | ⟨none, -⟩
  · rw [List.drop_zero, eq] at eq'
    rw [encodeList_inj short short' eq']
    exact done
  · exact absurd ⟨names, short, eq⟩ none

/-- The decoder refuses everything else. -/
theorem decodeList_refuses {raw : Slice} (none : ¬∃ names, Short names ∧ raw.bytes = encodeList names)
    (pre out : List UInt8) : (decodeList raw pre out).1 = .error (.errno Errno.EIO) := by
  rcases decodeLoop_spec raw.fits pre 0 out with ⟨names, short, eq, -⟩ | ⟨-, out', refused⟩
  · exact absurd ⟨names, short, eq⟩ none
  · exact congrArg Prod.fst refused

/-! ## The names that come out -/

/-- The names an attribute can have. -/
def Proper (names : List (List UInt8)) : Prop :=
  ∀ name ∈ names, 1 ≤ name.length ∧ name.length ≤ 255 ∧ 0 ∉ name

theorem Proper.short {names : List (List UInt8)} (proper : Proper names) : Short names :=
  fun name mem => (proper name mem).2.1

theorem appendNamespace_eq {raw : Slice} {names : List (List UInt8)} (short : Short names)
    (eq : raw.bytes = encodeList names) (pre : List UInt8) :
    appendNamespace (.ok raw) pre [] = (.ok (), terminated pre names) := by
  unfold appendNamespace
  dsimp only
  split
  · rename_i empty
    rw [List.length_eq_zero_iff, eq] at empty
    cases names with
    | nil => rfl
    | cons name names => cases empty
  · rw [decodeList_encodeList short eq, List.nil_append]

theorem toInt8_eq_zero {b : UInt8} : b.toInt8 = 0 ↔ b = 0 := by
  constructor
  · intro zero
    rw [← UInt8.toUInt8_toInt8 b, zero]
    rfl
  · rintro rfl
    rfl

/-- Splitting at the terminators gives the names back, and an empty rest. -/
theorem splitOn_terminated {pre : List UInt8} (nonzero : 0 ∉ pre) {names : List (List UInt8)}
    (proper : Proper names) : ((terminated pre names).map UInt8.toInt8).splitOn 0 =
      names.map (fun name => (pre ++ name).map UInt8.toInt8) ++ [[]] := by
  induction names with
  | nil => rfl
  | cons name names ih =>
      have tail : Proper names := fun name mem => proper name (List.mem_cons_of_mem _ mem)
      have free : (0 : Int8) ∉ (pre ++ name).map UInt8.toInt8 := by
        intro mem
        obtain ⟨b, mem, zero⟩ := List.mem_map.mp mem
        rw [toInt8_eq_zero.mp zero] at mem
        rcases List.mem_append.mp mem with mem | mem
        · exact nonzero mem
        · exact (proper name List.mem_cons_self).2.2 mem
      have split : (terminated pre (name :: names)).map UInt8.toInt8 =
          (pre ++ name).map UInt8.toInt8 ++ 0 :: (terminated pre names).map UInt8.toInt8 := by
        simp [terminated]
      rw [split, List.splitOn_append_cons_self_of_not_mem free, ih tail]
      rfl

theorem userPrefix_nonzero : 0 ∉ userPrefix := by decide

theorem stripPrefix_append (pre name : List UInt8) : stripPrefix (pre ++ name) pre = some name := by
  induction pre with
  | nil =>
      cases name with
      | nil => rfl
      | cons b name => rfl
  | cons b pre ih =>
      rw [List.cons_append, stripPrefix, if_pos rfl]
      exact ih

theorem splitNamespace_user {name : List UInt8} (some : 1 ≤ name.length) (free : 0 ∉ name) :
    splitNamespace (userPrefix ++ name) = .ok (.user, name) := by
  have nonempty : name ≠ [] := List.ne_nil_of_length_pos some
  unfold splitNamespace
  rw [stripPrefix_append]
  dsimp only
  rw [if_neg nonempty, cString, if_neg free]
  rfl

/-- A buffer of the size asked for takes the whole list. -/
theorem listxattr_sized {attrs : Except Errno Slice} {bytes : List UInt8}
    (list : appendNamespace attrs userPrefix [] = (.ok (), bytes)) :
    listxattr attrs [] = .ok (bytes.length, []) ∧
      listxattr attrs (List.replicate bytes.length 0) =
        .ok (bytes.length, bytes.map UInt8.toInt8) := by
  unfold listxattr
  rw [list]
  dsimp only
  refine ⟨if_pos rfl, ?_⟩
  split
  · rename_i empty
    have none : bytes = [] := by
      rw [List.replicate_eq_nil_iff] at empty
      exact List.length_eq_zero_iff.mp empty
    rw [none]
    rfl
  · rw [if_neg (by rw [List.length_replicate]; omega), List.drop_replicate, Nat.sub_self,
      List.replicate_zero, List.append_nil]

theorem filter_nonempty {names : List (List UInt8)} (proper : Proper names) (pre : List UInt8) :
    (names.map (fun name => (pre ++ name).map UInt8.toInt8) ++ [[]]).filter (· ≠ []) =
      names.map (fun name => (pre ++ name).map UInt8.toInt8) := by
  rw [List.filter_append]
  have last : ([[]] : List (List Int8)).filter (· ≠ []) = [] := by simp
  rw [last, List.append_nil, List.filter_eq_self]
  intro chars mem
  obtain ⟨name, here, rfl⟩ := List.mem_map.mp mem
  have := (proper name here).1
  have nonempty : (pre ++ name).map UInt8.toInt8 ≠ [] := by
    refine List.ne_nil_of_length_pos ?_
    rw [List.length_map, List.length_append]
    omega
  exact decide_eq_true nonempty

/-- The names are listed with their prefix, as the kernel has them. -/
theorem listxattrNamesNofollow_eq {raw : Slice} {names : List (List UInt8)} (proper : Proper names)
    (eq : raw.bytes = encodeList names) :
    listxattrNamesNofollow (.ok raw) = .ok (names.map (userPrefix ++ ·)) := by
  obtain ⟨sized, read⟩ := listxattr_sized (appendNamespace_eq proper.short eq userPrefix)
  have whole : ((terminated userPrefix names).map UInt8.toInt8).take
      (terminated userPrefix names).length = (terminated userPrefix names).map UInt8.toInt8 :=
    List.take_of_length_le (Nat.le_of_eq (List.length_map _))
  unfold listxattrNamesNofollow
  rw [sized, ok_bind]
  dsimp only
  rw [read, ok_bind]
  dsimp only
  rw [whole, splitOn_terminated userPrefix_nonzero proper, filter_nonempty proper, List.map_map]
  congr 1
  refine List.map_congr_left fun name _ => ?_
  have back : Int8.toUInt8 ∘ UInt8.toInt8 = id := funext UInt8.toUInt8_toInt8
  rw [Function.comp_apply, List.map_map, back, List.map_id]

/-- The decoder accepts exactly the kernel's format, and the names come out as they went in. -/
theorem attribute_list_decoded :
    (∀ (raw : Slice) (pre out : List UInt8),
      ((decodeList raw pre out).1 = .ok () ↔
        ∃ names, Short names ∧ raw.bytes = encodeList names) ∧
      (∀ names, Short names → raw.bytes = encodeList names →
        decodeList raw pre out = (.ok (), out ++ terminated pre names)) ∧
      ((decodeList raw pre out).1 ≠ .ok () →
        (decodeList raw pre out).1 = .error (.errno Errno.EIO))) ∧
    ∀ (raw : Slice) (names : List (List UInt8)), Proper names → raw.bytes = encodeList names →
      listxattrNamesNofollow (.ok raw) = .ok (names.map (userPrefix ++ ·)) ∧
      ∀ name ∈ names, splitNamespace (userPrefix ++ name) = .ok (.user, name) := by
  refine ⟨fun raw pre out => ?_, fun raw names proper eq => ⟨?_, fun name mem => ?_⟩⟩
  · by_cases entries : ∃ names, Short names ∧ raw.bytes = encodeList names
    · obtain ⟨names, short, eq⟩ := entries
      have decoded := decodeList_encodeList short eq pre out
      refine ⟨⟨fun _ => ⟨names, short, eq⟩, fun _ => by rw [decoded]⟩, ?_, fun ne => ?_⟩
      · exact fun names short eq => decodeList_encodeList short eq pre out
      · rw [decoded] at ne
        exact absurd rfl ne
    · have refused := decodeList_refuses entries pre out
      refine ⟨⟨fun ok => ?_, fun h => absurd h entries⟩, fun names short eq => ?_, fun _ => refused⟩
      · rw [refused] at ok
        cases ok
      · exact absurd ⟨names, short, eq⟩ entries
  · exact listxattrNamesNofollow_eq proper eq
  · exact splitNamespace_user (proper name mem).1 (proper name mem).2.2

/-- Two attributes, `ab` and `cde`. -/
theorem two_attributes_listed :
    listxattrNamesNofollow (.ok ⟨encodeList [[97, 98], [99, 100, 101]], by decide⟩) =
        .ok [userPrefix ++ [97, 98], userPrefix ++ [99, 100, 101]] ∧
      splitNamespace (userPrefix ++ [97, 98]) = .ok (.user, [97, 98]) := by
  have listed := attribute_list_decoded.2 ⟨encodeList [[97, 98], [99, 100, 101]], by decide⟩
    [[97, 98], [99, 100, 101]] (by unfold Proper; decide) rfl
  exact ⟨listed.1, listed.2 [97, 98] (by decide)⟩

end TypedFuse.Xattr
