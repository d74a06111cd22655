import Mathlib.Data.List.Basic
import TypedFuse.Core.Types

/-!
# Mount options

The options of `session.rs`, which `Session::new_with_config` renders and joins to one `-o` argument,
and the `MountConfig` of `mount.rs` they are built from.  Strings are their UTF-8 bytes: the comma
and the backslash are the only characters that the code looks at, and neither byte occurs inside
another character.

The parser of that argument is libfuse's.  It is the parameter `OptionParser`, and
`mount_options_survive` is that it reads back the options which were put in.
-/

namespace TypedFuse.Mount

abbrev Bytes : Type := List UInt8

/-! ## The parser of libfuse -/

/-- The byte that three octal digits stand for, when the text starts with them and the first is at
most `3`. -/
def octalByte : Bytes → Option UInt8
  | a :: b :: c :: _ =>
    if 48 ≤ a ∧ a ≤ 51 ∧ 48 ≤ b ∧ b ≤ 55 ∧ 48 ≤ c ∧ c ≤ 55 then
      some ((a - 48) * 64 + (b - 48) * 8 + (c - 48))
    else none
  | _ => none

/-- One more byte at the front of the first word. -/
def push (c : UInt8) (words : List Bytes) : List Bytes :=
  words.modifyHead (c :: ·)

/-- What is assumed of the `-o` parser: it splits at the commas that are not escaped, and a backslash
stands for the byte of the three octal digits after it, or else escapes the byte after it.  Nothing
is said of a backslash at the very end. -/
structure OptionParser where
  parse : Bytes → List Bytes
  nil : parse [] = [[]]
  comma (s : Bytes) : parse (44 :: s) = [] :: parse s
  octal {s : Bytes} {b : UInt8} :
    octalByte s = some b → parse (92 :: s) = push b (parse (s.drop 3))
  escaped {c : UInt8} {s : Bytes} :
    octalByte (c :: s) = none → parse (92 :: c :: s) = push c (parse s)
  plain {c : UInt8} {s : Bytes} : c ≠ 44 → c ≠ 92 → parse (c :: s) = push c (parse s)

/-- The loop of libfuse, where `skip` is how far the last escape has moved the read pointer. -/
def scan : Nat → Bytes → List Bytes
  | _, [] => [[]]
  | skip + 1, _ :: s => scan skip s
  | 0, c :: s =>
    if c = 44 then [] :: scan 0 s
    else if c = 92 then
      match octalByte s, s with
      | some b, _ => push b (scan 3 s)
      | none, d :: _ => push d (scan 1 s)
      | none, [] => push 92 (scan 0 s)
    else push c (scan 0 s)

theorem scan_drop (skip : Nat) (s : Bytes) : scan skip s = scan 0 (s.drop skip) := by
  induction s generalizing skip with
  | nil => cases skip <;> rfl
  | cons c s ih =>
    cases skip with
    | zero => rfl
    | succ skip => simpa [scan] using ih skip

/-- The parser as libfuse has it: a backslash at the end stands for itself. -/
def libfuse : OptionParser where
  parse := scan 0
  nil := rfl
  comma _ := rfl
  octal {s b} digits := by
    rw [← scan_drop]
    simp [scan, digits]
  escaped digits := by simp [scan, digits]
  plain comma escape := by simp [scan, comma, escape]

/-- A backslash at the end escapes nothing. -/
def endsUnpaired : Bytes → Bool
  | [] => false
  | c :: s =>
    if c = 92 then
      match s with
      | [] => true
      | _ :: s => endsUnpaired s
    else endsUnpaired s

theorem push_append (c : UInt8) {words : List Bytes} (ne : words ≠ []) (more : List Bytes) :
    push c words ++ more = push c (words ++ more) := by
  cases words with
  | nil => exact absurd rfl ne
  | cons => rfl

theorem push_ne_nil {c : UInt8} {words : List Bytes} (ne : words ≠ []) : push c words ≠ [] := by
  cases words with
  | nil => exact absurd rfl ne
  | cons => simp [push]

theorem endsUnpaired_of_plain {c : UInt8} (plain : c ≠ 92) (s : Bytes) :
    endsUnpaired (c :: s) = endsUnpaired s := by
  rw [endsUnpaired.eq_def]
  exact if_neg plain

theorem endsUnpaired_escape (c : UInt8) (s : Bytes) :
    endsUnpaired (92 :: c :: s) = endsUnpaired s := by
  rw [endsUnpaired, if_pos rfl]

/-- Three octal digits are in the text, and none of them is a backslash. -/
theorem octalByte_eq_some {s : Bytes} {b : UInt8} (digits : octalByte s = some b) :
    ∃ a c d rest, s = a :: c :: d :: rest ∧ c ≠ 92 ∧ d ≠ 92 := by
  unfold octalByte at digits
  split at digits
  · rename_i a c d rest
    split at digits
    · rename_i range
      refine ⟨a, c, d, rest, rfl, ?_, ?_⟩
      · rintro rfl
        exact absurd range.2.2.2.1 (by decide)
      · rintro rfl
        exact absurd range.2.2.2.2.2 (by decide)
    · cases digits
  · cases digits

/-- A comma is no digit, so what follows it decides no escape before it. -/
theorem octalByte_append_comma (s more : Bytes) :
    octalByte (s ++ 44 :: more) = octalByte s := by
  rcases s with _ | ⟨a, _ | ⟨b, _ | ⟨c, s⟩⟩⟩
  · rcases more with _ | ⟨b, _ | ⟨c, more⟩⟩ <;> simp [octalByte]
  · rcases more with _ | ⟨c, more⟩ <;> simp [octalByte]
  · simp [octalByte]
  · rfl

/-- The texts whose last escape is complete, as the parser goes along them. -/
inductive Closed : Bytes → Prop
  | nil : Closed []
  | comma {s : Bytes} : Closed s → Closed (44 :: s)
  | octal {a b c d : UInt8} {s : Bytes} :
    octalByte (a :: b :: c :: s) = some d → Closed s → Closed (92 :: a :: b :: c :: s)
  | escaped {c : UInt8} {s : Bytes} :
    octalByte (c :: s) = none → Closed s → Closed (92 :: c :: s)
  | plain {c : UInt8} {s : Bytes} : c ≠ 44 → c ≠ 92 → Closed s → Closed (c :: s)

theorem Closed.of_paired {s : Bytes} (paired : endsUnpaired s = false) : Closed s := by
  -- On the length: an octal escape takes three bytes more than the backslash.
  induction len : s.length using Nat.strongRecOn generalizing s with
  | _ n ih =>
    subst len
    rcases s with _ | ⟨c, s⟩
    · exact .nil
    by_cases isEscape : c = 92
    · subst isEscape
      rcases s with _ | ⟨a, s⟩
      · simp [endsUnpaired] at paired
      rw [endsUnpaired_escape] at paired
      rcases digits : octalByte (a :: s) with _ | d
      · exact .escaped digits (ih s.length (by simp only [List.length_cons]; omega) paired rfl)
      · obtain ⟨a', b, c, rest, eq, bPlain, cPlain⟩ := octalByte_eq_some digits
        obtain ⟨rfl, rfl⟩ := List.cons_eq_cons.mp eq
        rw [endsUnpaired_of_plain bPlain, endsUnpaired_of_plain cPlain] at paired
        exact .octal digits (ih rest.length (by simp only [List.length_cons]; omega) paired rfl)
    · rw [endsUnpaired_of_plain isEscape] at paired
      have closed := ih s.length (by simp) paired rfl
      by_cases isComma : c = 44
      · subst isComma
        exact .comma closed
      · exact .plain isComma isEscape closed

namespace OptionParser

variable (P : OptionParser)

theorem parse_ne_nil {w : Bytes} (closed : Closed w) : P.parse w ≠ [] := by
  induction closed with
  | nil => simp [P.nil]
  | comma => simp [P.comma]
  | octal digits _ ih =>
    rw [P.octal digits]
    exact push_ne_nil ih
  | escaped digits _ ih =>
    rw [P.escaped digits]
    exact push_ne_nil ih
  | plain comma escape _ ih =>
    rw [P.plain comma escape]
    exact push_ne_nil ih

/-- A complete text and what follows it after a comma are parsed apart. -/
theorem parse_append {w : Bytes} (closed : Closed w) (more : Bytes) :
    P.parse (w ++ 44 :: more) = P.parse w ++ P.parse more := by
  induction closed with
  | nil => simp [P.nil, P.comma]
  | comma closed ih => simp [P.comma, ih]
  | @octal a b c d s digits closed ih =>
    have digits' : octalByte (a :: b :: c :: (s ++ 44 :: more)) = some d := digits
    have apart := P.octal digits'
    simp only [List.drop_succ_cons, List.drop_zero] at apart
    have alone := P.octal digits
    simp only [List.drop_succ_cons, List.drop_zero] at alone
    rw [alone, push_append d (P.parse_ne_nil closed), ← ih, ← apart]
    rfl
  | @escaped c s digits closed ih =>
    have digits' : octalByte (c :: (s ++ 44 :: more)) = none := by
      rw [← List.cons_append, octalByte_append_comma, digits]
    rw [P.escaped digits, push_append c (P.parse_ne_nil closed), List.cons_append,
      List.cons_append, P.escaped digits', ih]
  | @plain c s comma escape closed ih =>
    rw [P.plain comma escape, push_append c (P.parse_ne_nil closed), List.cons_append,
      P.plain comma escape, ih]

end OptionParser

/-- Neither a comma nor a backslash is in the text. -/
def Verbatim (w : Bytes) : Prop := 44 ∉ w ∧ 92 ∉ w

instance : DecidablePred Verbatim := fun _ => inferInstanceAs (Decidable (_ ∧ _))

theorem Verbatim.of_cons {c : UInt8} {w : Bytes} (verbatim : Verbatim (c :: w)) :
    c ≠ 44 ∧ c ≠ 92 ∧ Verbatim w := by
  simp only [Verbatim, List.mem_cons, not_or] at verbatim
  exact ⟨Ne.symm verbatim.1.1, Ne.symm verbatim.2.1, verbatim.1.2, verbatim.2.2⟩

theorem Closed.append_of_verbatim {key s : Bytes} (verbatim : Verbatim key) (closed : Closed s) :
    Closed (key ++ s) := by
  induction key with
  | nil => exact closed
  | cons c key ih =>
    obtain ⟨comma, escape, verbatim⟩ := verbatim.of_cons
    exact .plain comma escape (ih verbatim)

theorem endsUnpaired_of_verbatim {w : Bytes} (verbatim : Verbatim w) : endsUnpaired w = false := by
  induction w with
  | nil => rfl
  | cons c w ih =>
    obtain ⟨-, escape, verbatim⟩ := verbatim.of_cons
    rw [endsUnpaired_of_plain escape, ih verbatim]

theorem OptionParser.parse_key (P : OptionParser) {key s value : Bytes} (verbatim : Verbatim key)
    (parsed : P.parse s = [value]) : P.parse (key ++ s) = [key ++ value] := by
  induction key with
  | nil => exact parsed
  | cons c key ih =>
    obtain ⟨comma, escape, verbatim⟩ := verbatim.of_cons
    rw [List.cons_append, P.plain comma escape, ih verbatim]
    rfl

theorem OptionParser.parse_verbatim (P : OptionParser) {w : Bytes} (verbatim : Verbatim w) :
    P.parse w = [w] := by
  have parsed := P.parse_key verbatim P.nil
  simpa using parsed

theorem Closed.of_verbatim {w : Bytes} (verbatim : Verbatim w) : Closed w := by
  simpa using Closed.append_of_verbatim verbatim .nil

/-! ## Options of a session -/

def ro : Bytes := [114, 111]
def rw : Bytes := [114, 119]
def allowOther : Bytes := [97, 108, 108, 111, 119, 95, 111, 116, 104, 101, 114]
def allowRoot : Bytes := [97, 108, 108, 111, 119, 95, 114, 111, 111, 116]
def autoUnmount : Bytes := [97, 117, 116, 111, 95, 117, 110, 109, 111, 117, 110, 116]
def nonempty : Bytes := [110, 111, 110, 101, 109, 112, 116, 121]

def defaultPermissions : Bytes :=
  [100, 101, 102, 97, 117, 108, 116, 95, 112, 101, 114, 109, 105, 115, 115, 105, 111, 110, 115]

/-- The bytes of `fsname=`, and so on. -/
def fsnameKey : Bytes := [102, 115, 110, 97, 109, 101, 61]
def subtypeKey : Bytes := [115, 117, 98, 116, 121, 112, 101, 61]
def volnameKey : Bytes := [118, 111, 108, 110, 97, 109, 101, 61]

inductive MountOption
  | readOnly
  | allowOther
  | allowRoot
  | autoUnmount
  | defaultPermissions
  | nonEmpty
  | fsName (name : Bytes)
  | subtype (name : Bytes)
  | volName (name : Bytes)
  | custom (opt : Bytes)
deriving DecidableEq, Repr

def escapeOptionValue : Bytes → Bytes
  | [] => []
  | c :: value =>
    if c = 44 ∨ c = 92 then 92 :: c :: escapeOptionValue value else c :: escapeOptionValue value

namespace MountOption

/-- The word of the option, if it has one on the platform; `macos` is
`cfg!(target_os = "macos")`. -/
def render (macos : Bool) : MountOption → Option Bytes
  | readOnly => some ro
  | allowOther => some Mount.allowOther
  | allowRoot => some Mount.allowRoot
  | autoUnmount => some Mount.autoUnmount
  | defaultPermissions => some Mount.defaultPermissions
  | nonEmpty => if macos then some nonempty else none
  | fsName name => some (fsnameKey ++ escapeOptionValue name)
  | subtype name => some (subtypeKey ++ escapeOptionValue name)
  | volName name => if macos then some (volnameKey ++ escapeOptionValue name) else none
  | custom opt => some opt

/-- The words that the option is meant to reach libfuse as. -/
def words (P : OptionParser) (macos : Bool) : MountOption → List Bytes
  | readOnly => [ro]
  | allowOther => [Mount.allowOther]
  | allowRoot => [Mount.allowRoot]
  | autoUnmount => [Mount.autoUnmount]
  | defaultPermissions => [Mount.defaultPermissions]
  | nonEmpty => if macos then [nonempty] else []
  | fsName name => [fsnameKey ++ name]
  | subtype name => [subtypeKey ++ name]
  | volName name => if macos then [volnameKey ++ name] else []
  | custom opt => P.parse opt

/-- No string of the option holds a NUL. -/
def NulFree : MountOption → Prop
  | fsName text | subtype text | volName text | custom text => 0 ∉ text
  | _ => True

/-- A raw word does not end in the middle of an escape. -/
def Paired : MountOption → Prop
  | custom opt => endsUnpaired opt = false
  | _ => True

end MountOption

/-- `rendered_options.join(",")`. -/
def joined : List Bytes → Bytes
  | [] => []
  | [word] => word
  | word :: words => word ++ 44 :: joined words

/-- The argument after `-o`, when an option is rendered. -/
def optionArg (macos : Bool) (options : List MountOption) : Option Bytes :=
  match options.filterMap (·.render macos) with
  | [] => none
  | word :: words => some (joined (word :: words))

/-- `arg_strings`: the name `fuse3`, then `-o` with its argument. -/
def argStrings (macos : Bool) (options : List MountOption) : List Bytes :=
  [102, 117, 115, 101, 51] ::
    match optionArg macos options with
    | none => []
    | some arg => [[45, 111], arg]

/-- `CString::new(s).expect(..)` for every argument. -/
def argCstrings (macos : Bool) (options : List MountOption) : Except Exit (List Bytes) :=
  (argStrings macos options).mapM fun s => if 0 ∈ s then .error .panic else .ok s

/-- The words that libfuse reads from the argument. -/
def mountWords (P : OptionParser) (macos : Bool) (options : List MountOption) : List Bytes :=
  match optionArg macos options with
  | none => []
  | some arg => P.parse arg

/-- The bytes that are escaped are no octal digits. -/
theorem octalByte_of_special {c : UInt8} (special : c = 44 ∨ c = 92) (s : Bytes) :
    octalByte (c :: s) = none := by
  rcases special with rfl | rfl <;> rcases s with _ | ⟨a, _ | ⟨b, s⟩⟩ <;> simp [octalByte]

theorem Closed.of_escape (value : Bytes) : Closed (escapeOptionValue value) := by
  induction value with
  | nil => exact .nil
  | cons c value ih =>
    rw [escapeOptionValue]
    split
    · rename_i special
      exact .escaped (octalByte_of_special special _) ih
    · rename_i ordinary
      exact .plain (fun comma => ordinary (.inl comma)) (fun escape => ordinary (.inr escape)) ih

theorem OptionParser.parse_escape (P : OptionParser) (value : Bytes) :
    P.parse (escapeOptionValue value) = [value] := by
  induction value with
  | nil => exact P.nil
  | cons c value ih =>
    rw [escapeOptionValue]
    split
    · rename_i special
      rw [P.escaped (octalByte_of_special special _), ih]
      rfl
    · rename_i ordinary
      rw [P.plain (fun comma => ordinary (.inl comma)) (fun escape => ordinary (.inr escape)), ih]
      rfl

theorem zero_notMem_escape {value : Bytes} (nulFree : 0 ∉ value) :
    0 ∉ escapeOptionValue value := by
  induction value with
  | nil => exact nulFree
  | cons c value ih =>
    simp only [List.mem_cons, not_or] at nulFree
    have rest := ih nulFree.2
    rw [escapeOptionValue]
    split <;> simp [nulFree.1, rest]

/-- A text that reaches the parser as one argument and is read as the given words. -/
structure Reads (P : OptionParser) (text : Bytes) (words : List Bytes) : Prop where
  closed : Closed text
  parsed : P.parse text = words

namespace Reads

variable {P : OptionParser}

theorem verbatim {w : Bytes} (plain : Verbatim w) : Reads P w [w] :=
  ⟨.of_verbatim plain, P.parse_verbatim plain⟩

theorem value {key : Bytes} (plain : Verbatim key) (value : Bytes) :
    Reads P (key ++ escapeOptionValue value) [key ++ value] :=
  ⟨.append_of_verbatim plain (.of_escape value), P.parse_key plain (P.parse_escape value)⟩

end Reads

theorem MountOption.reads_of_render {P : OptionParser} {macos : Bool} {option : MountOption}
    {text : Bytes} (paired : option.Paired) (rendered : option.render macos = some text) :
    Reads P text (option.words P macos) := by
  cases option with
  | custom opt =>
    cases rendered
    exact ⟨.of_paired paired, rfl⟩
  | nonEmpty =>
    cases macos <;> cases rendered
    exact .verbatim (by decide)
  | volName name =>
    cases macos <;> cases rendered
    exact .value (by decide) name
  | fsName name | subtype name =>
    cases rendered
    exact .value (by decide) name
  | readOnly | allowOther | allowRoot | autoUnmount | defaultPermissions =>
    cases rendered
    exact .verbatim (by decide)

theorem MountOption.words_of_dropped {P : OptionParser} {macos : Bool} {option : MountOption}
    (dropped : option.render macos = none) : option.words P macos = [] := by
  cases option <;> cases macos <;> cases dropped <;> rfl

theorem MountOption.zero_notMem_of_render {macos : Bool} {option : MountOption} {text : Bytes}
    (nulFree : option.NulFree) (rendered : option.render macos = some text) : 0 ∉ text := by
  have keyed {key value : Bytes} (ofKey : 0 ∉ key) (ofValue : 0 ∉ value) :
      0 ∉ key ++ escapeOptionValue value := by
    simp [ofKey, zero_notMem_escape ofValue]
  cases option with
  | custom opt =>
    cases rendered
    exact nulFree
  | nonEmpty =>
    cases macos <;> cases rendered
    decide
  | volName name =>
    cases macos <;> cases rendered
    exact keyed (by decide) nulFree
  | fsName name | subtype name =>
    cases rendered
    exact keyed (by decide) nulFree
  | readOnly | allowOther | allowRoot | autoUnmount | defaultPermissions =>
    cases rendered
    decide

theorem OptionParser.parse_joined (P : OptionParser) {word : Bytes} {words : List Bytes}
    (closed : ∀ w ∈ word :: words, Closed w) :
    P.parse (joined (word :: words)) = (word :: words).flatMap P.parse := by
  induction words generalizing word with
  | nil => simp [joined]
  | cons next words ih =>
    have rest := ih fun w mem => closed w (List.mem_cons_of_mem _ mem)
    rw [joined, P.parse_append (closed word List.mem_cons_self), rest]
    · simp
    · simp

theorem zero_notMem_joined {words : List Bytes} (nulFree : ∀ w ∈ words, 0 ∉ w) :
    0 ∉ joined words := by
  induction words using joined.induct with
  | case1 => simp [joined]
  | case2 word => exact nulFree word List.mem_cons_self
  | case3 word words more ih =>
    have rest := ih fun w mem => nulFree w (List.mem_cons_of_mem _ mem)
    rw [joined]
    · simp [nulFree word List.mem_cons_self, rest]
    · exact more

/-- The words of the rendered options are those of all of them. -/
theorem flatMap_rendered {P : OptionParser} {macos : Bool} {options : List MountOption}
    (paired : ∀ option ∈ options, option.Paired) :
    (options.filterMap (·.render macos)).flatMap P.parse =
      options.flatMap (·.words P macos) := by
  induction options with
  | nil => rfl
  | cons option options ih =>
    have rest := ih fun o mem => paired o (List.mem_cons_of_mem _ mem)
    rcases rendered : option.render macos with _ | text
    · rw [List.filterMap_cons_none rendered, rest, List.flatMap_cons,
        option.words_of_dropped rendered, List.nil_append]
    · have reads := option.reads_of_render (P := P) (paired option List.mem_cons_self) rendered
      rw [List.filterMap_cons_some rendered, List.flatMap_cons, List.flatMap_cons, rest,
        reads.parsed]

/-- The options arrive as their words. -/
theorem mountWords_eq {P : OptionParser} {macos : Bool} {options : List MountOption}
    (paired : ∀ option ∈ options, option.Paired) :
    mountWords P macos options = options.flatMap (·.words P macos) := by
  have closed : ∀ w ∈ options.filterMap (·.render macos), Closed w := by
    intro w mem
    obtain ⟨option, mem, rendered⟩ := List.mem_filterMap.mp mem
    exact (option.reads_of_render (P := P) (paired option mem) rendered).closed
  rw [← flatMap_rendered paired]
  unfold mountWords optionArg
  generalize options.filterMap (·.render macos) = rendered at closed ⊢
  rcases rendered with _ | ⟨word, words⟩
  · rfl
  · exact P.parse_joined closed

theorem argCstrings_eq {macos : Bool} {options : List MountOption}
    (nulFree : ∀ option ∈ options, option.NulFree) :
    argCstrings macos options = .ok (argStrings macos options) := by
  have texts : ∀ w ∈ options.filterMap (·.render macos), 0 ∉ w := by
    intro w mem
    obtain ⟨option, mem, rendered⟩ := List.mem_filterMap.mp mem
    exact option.zero_notMem_of_render (nulFree option mem) rendered
  unfold argCstrings argStrings optionArg
  generalize options.filterMap (·.render macos) = rendered at texts ⊢
  rcases rendered with _ | ⟨word, words⟩
  · rfl
  · have arg := zero_notMem_joined texts
    simp only [List.mapM_cons, List.mapM_nil, arg, if_false]
    rfl

/-! ## Options of a configuration -/

structure MountConfig where
  fsName : Bytes
  subtype : Option Bytes
  allowOther : Bool
  allowRoot : Bool
  defaultPermissions : Bool
  readOnly : Bool
  nonempty : Bool
  volname : Option Bytes
  extraOptions : List Bytes
deriving DecidableEq, Repr

namespace MountConfig

def new (fsName : Bytes) : MountConfig where
  fsName
  subtype := none
  allowOther := false
  allowRoot := false
  defaultPermissions := true
  readOnly := false
  nonempty := false
  volname := none
  extraOptions := []

/-- One word of `parse_option_words`. -/
def parseOptionWord (cfg : MountConfig) (word : Bytes) : MountConfig :=
  if let some name := word.dropPrefix? fsnameKey then { cfg with fsName := name }
  else if let some name := word.dropPrefix? subtypeKey then { cfg with subtype := some name }
  else if let some name := word.dropPrefix? volnameKey then { cfg with volname := some name }
  else if word = Mount.allowOther then { cfg with allowOther := true }
  else if word = Mount.allowRoot then { cfg with allowRoot := true }
  else if word = Mount.nonempty then { cfg with nonempty := true }
  else if word = ro then { cfg with readOnly := true }
  else if word = rw then { cfg with readOnly := false }
  else if word = Mount.defaultPermissions then { cfg with defaultPermissions := true }
  else { cfg with extraOptions := cfg.extraOptions ++ [word] }

def parseOptionWords (cfg : MountConfig) (words : List Bytes) : MountConfig :=
  words.foldl parseOptionWord cfg

end MountConfig

/-- The words that `parse_option_words` has a field for. -/
def Recognised (word : Bytes) : Prop :=
  fsnameKey <+: word ∨ subtypeKey <+: word ∨ volnameKey <+: word ∨
    word ∈ [allowOther, allowRoot, nonempty, ro, rw, defaultPermissions]

instance : DecidablePred Recognised := fun _ => inferInstanceAs (Decidable (_ ∨ _))

def buildMountOptions (cfg : MountConfig) : List MountOption :=
  [.fsName cfg.fsName]
    ++ cfg.subtype.toList.map .subtype
    ++ (if cfg.allowOther then [.allowOther] else [])
    ++ (if cfg.allowRoot then [.allowRoot] else [])
    ++ (if cfg.defaultPermissions then [.defaultPermissions] else [])
    ++ (if cfg.readOnly then [.readOnly] else [])
    ++ (if cfg.nonempty then [.nonEmpty] else [])
    ++ cfg.volname.toList.map .volName
    ++ cfg.extraOptions.map .custom

/-- The value of the last word that names the file system. -/
def lastFsName (words : List Bytes) : Option Bytes :=
  (words.filterMap (·.dropPrefix? fsnameKey)).getLast?

theorem dropPrefix_eq_some {word key value : Bytes} :
    word.dropPrefix? key = some value ↔ word = key ++ value := by
  simp [List.dropPrefix?_eq_some_iff]

theorem dropPrefix_eq_none {word key : Bytes} :
    (∀ value, word.dropPrefix? key ≠ some value) ↔ ¬ key <+: word := by
  constructor
  · rintro none ⟨value, eq⟩
    exact none value (dropPrefix_eq_some.mpr eq.symm)
  · intro isPrefix value eq
    exact isPrefix ⟨value, (dropPrefix_eq_some.mp eq).symm⟩

namespace MountConfig

theorem fsName_parseOptionWord (cfg : MountConfig) (word : Bytes) :
    (cfg.parseOptionWord word).fsName = (word.dropPrefix? fsnameKey).getD cfg.fsName := by
  unfold parseOptionWord
  split
  · rename_i name named
    rw [named]
    rfl
  · rename_i unnamed
    have unnamed := Option.eq_none_iff_forall_ne_some.mpr unnamed
    rw [unnamed, Option.getD_none]
    repeat' split
    all_goals rfl

/-- A word that has no field is kept as it is. -/
theorem extraOptions_parseOptionWord (cfg : MountConfig) (word : Bytes) :
    (cfg.parseOptionWord word).extraOptions =
      cfg.extraOptions ++ if Recognised word then [] else [word] := by
  have known (recognised : Recognised word) :
      cfg.extraOptions = cfg.extraOptions ++ if Recognised word then [] else [word] := by
    rw [if_pos recognised, List.append_nil]
  unfold parseOptionWord
  split
  · rename_i name named
    exact known (.inl ⟨name, (dropPrefix_eq_some.mp named).symm⟩)
  rename_i noFsname
  split
  · rename_i name named
    exact known (.inr (.inl ⟨name, (dropPrefix_eq_some.mp named).symm⟩))
  rename_i noSubtype
  split
  · rename_i name named
    exact known (.inr (.inr (.inl ⟨name, (dropPrefix_eq_some.mp named).symm⟩)))
  rename_i noVolname
  split
  · exact known (.inr (.inr (.inr (by simp [*]))))
  split
  · exact known (.inr (.inr (.inr (by simp [*]))))
  split
  · exact known (.inr (.inr (.inr (by simp [*]))))
  split
  · exact known (.inr (.inr (.inr (by simp [*]))))
  split
  · exact known (.inr (.inr (.inr (by simp [*]))))
  split
  · exact known (.inr (.inr (.inr (by simp [*]))))
  · have unknown : ¬ Recognised word := by
      rintro (key | key | key | known)
      · exact dropPrefix_eq_none.mp noFsname key
      · exact dropPrefix_eq_none.mp noSubtype key
      · exact dropPrefix_eq_none.mp noVolname key
      · simp_all
    rw [if_neg unknown]

theorem fsName_parseOptionWords (cfg : MountConfig) (words : List Bytes) :
    (cfg.parseOptionWords words).fsName = (lastFsName words).getD cfg.fsName := by
  unfold parseOptionWords lastFsName
  induction words generalizing cfg with
  | nil => rfl
  | cons word words ih =>
    rw [List.foldl_cons, ih, fsName_parseOptionWord]
    cases named : word.dropPrefix? fsnameKey with
    | none => simp only [List.filterMap_cons, named, Option.getD_none]
    | some name => simp only [List.filterMap_cons, named, List.getLast?_cons, Option.getD_some]

theorem extraOptions_parseOptionWords (cfg : MountConfig) (words : List Bytes) :
    (cfg.parseOptionWords words).extraOptions =
      cfg.extraOptions ++ words.filter fun word => ¬ Recognised word := by
  unfold parseOptionWords
  induction words generalizing cfg with
  | nil => simp
  | cons word words ih =>
    rw [List.foldl_cons, ih, extraOptions_parseOptionWord, List.append_assoc]
    by_cases recognised : Recognised word <;> simp [recognised]

end MountConfig

/-- The words that libfuse takes for the name of the file system. -/
def fsNameWords (words : List Bytes) : List Bytes :=
  words.filter fun word => fsnameKey <+: word

theorem fsNameWords_append (words more : List Bytes) :
    fsNameWords (words ++ more) = fsNameWords words ++ fsNameWords more :=
  List.filter_append ..

theorem fsNameWords_eq_nil {words : List Bytes} (other : ∀ w ∈ words, ¬ fsnameKey <+: w) :
    fsNameWords words = [] :=
  List.filter_eq_nil_iff.mpr fun w mem => by simpa using other w mem

/-- An option of a configuration other than its name. -/
def Unnamed (cfg : MountConfig) (option : MountOption) : Prop :=
  (∃ name, option = .subtype name) ∨ (∃ name, option = .volName name) ∨
    (option = .allowOther ∨ option = .allowRoot ∨ option = .defaultPermissions ∨
      option = .readOnly ∨ option = .nonEmpty) ∨
    ∃ w ∈ cfg.extraOptions, option = .custom w

theorem buildMountOptions_eq (cfg : MountConfig) :
    ∃ others, buildMountOptions cfg = .fsName cfg.fsName :: others ∧
      ∀ option ∈ others, Unnamed cfg option := by
  refine ⟨_, by simp only [buildMountOptions, List.append_assoc, List.cons_append,
    List.nil_append]; rfl, ?_⟩
  intro option mem
  simp only [List.mem_append, List.mem_map, List.mem_ite_nil_right, List.mem_singleton] at mem
  rcases mem with ⟨name, -, rfl⟩ | ⟨-, rfl⟩ | ⟨-, rfl⟩ | ⟨-, rfl⟩ | ⟨-, rfl⟩ | ⟨-, rfl⟩ |
    ⟨name, -, rfl⟩ | ⟨w, mem, rfl⟩
  · exact .inl ⟨name, rfl⟩
  · exact .inr (.inr (.inl (by simp)))
  · exact .inr (.inr (.inl (by simp)))
  · exact .inr (.inr (.inl (by simp)))
  · exact .inr (.inr (.inl (by simp)))
  · exact .inr (.inr (.inl (by simp)))
  · exact .inr (.inl ⟨name, rfl⟩)
  · exact .inr (.inr (.inr ⟨w, mem, rfl⟩))

/-- No word of such an option names the file system, if no extra word does. -/
theorem Unnamed.words {P : OptionParser} {macos : Bool} {cfg : MountConfig} {option : MountOption}
    (extra : ∀ w ∈ cfg.extraOptions, Verbatim w ∧ ¬ fsnameKey <+: w) (other : Unnamed cfg option) :
    ∀ w ∈ option.words P macos, ¬ fsnameKey <+: w := by
  intro w read
  rcases other with ⟨name, rfl⟩ | ⟨name, rfl⟩ | flag | ⟨w, mem, rfl⟩
  · rw [List.mem_singleton.mp read]
    simp [fsnameKey, subtypeKey]
  · cases macos
    · cases read
    · rw [List.mem_singleton.mp read]
      simp [fsnameKey, volnameKey]
  · rcases flag with rfl | rfl | rfl | rfl | rfl
    · rw [List.mem_singleton.mp read]
      decide
    · rw [List.mem_singleton.mp read]
      decide
    · rw [List.mem_singleton.mp read]
      decide
    · rw [List.mem_singleton.mp read]
      decide
    · cases macos
      · cases read
      · rw [List.mem_singleton.mp read]
        decide
  · obtain ⟨verbatim, other⟩ := extra w mem
    rw [MountOption.words, P.parse_verbatim verbatim] at read
    rwa [List.mem_singleton.mp read]

theorem Unnamed.paired {cfg : MountConfig} {option : MountOption}
    (extra : ∀ w ∈ cfg.extraOptions, endsUnpaired w = false) (other : Unnamed cfg option) :
    option.Paired := by
  rcases other with ⟨name, rfl⟩ | ⟨name, rfl⟩ | flag | ⟨w, mem, rfl⟩
  · trivial
  · trivial
  · rcases flag with rfl | rfl | rfl | rfl | rfl <;> trivial
  · exact extra w mem

/-- Among the words of a configuration only the first names the file system, if no extra word
does. -/
theorem fsNameWords_build {P : OptionParser} {macos : Bool} {cfg : MountConfig}
    (extra : ∀ w ∈ cfg.extraOptions, Verbatim w ∧ ¬ fsnameKey <+: w) :
    fsNameWords (mountWords P macos (buildMountOptions cfg)) = [fsnameKey ++ cfg.fsName] := by
  obtain ⟨others, eq, unnamed⟩ := buildMountOptions_eq cfg
  have paired : ∀ option ∈ buildMountOptions cfg, option.Paired := by
    intro option mem
    rw [eq] at mem
    rcases List.mem_cons.mp mem with rfl | mem
    · trivial
    · refine (unnamed option mem).paired fun w mem => ?_
      exact endsUnpaired_of_verbatim (extra w mem).1
  have rest : fsNameWords (others.flatMap (·.words P macos)) = [] := by
    refine fsNameWords_eq_nil fun word mem => ?_
    obtain ⟨option, mem, read⟩ := List.mem_flatMap.mp mem
    exact (unnamed option mem).words extra word read
  rw [mountWords_eq paired, eq, List.flatMap_cons, fsNameWords_append, rest, List.append_nil]
  simp [MountOption.words, fsNameWords]

/-- Every option reaches libfuse as its words and nothing else, whatever its value, and the words
of a configuration name the file system once, by the last `fsname=` that was given. -/
theorem mount_options_survive (P : OptionParser) (macos : Bool) :
    (∀ options : List MountOption,
      (∀ option ∈ options, option.NulFree ∧ option.Paired) →
      argCstrings macos options = .ok (argStrings macos options) ∧
      mountWords P macos options = options.flatMap (·.words P macos)) ∧
    (∀ (cfg : MountConfig) (words : List Bytes), cfg.extraOptions = [] →
      (∀ word ∈ words, ¬ Recognised word → Verbatim word) →
      fsNameWords (mountWords P macos (buildMountOptions (cfg.parseOptionWords words))) =
        [fsnameKey ++ (lastFsName words).getD cfg.fsName]) := by
  constructor
  · intro options wellFormed
    exact ⟨argCstrings_eq fun option mem => (wellFormed option mem).1,
      mountWords_eq fun option mem => (wellFormed option mem).2⟩
  · intro cfg words noExtra verbatim
    have extra : ∀ w ∈ (cfg.parseOptionWords words).extraOptions,
        Verbatim w ∧ ¬ fsnameKey <+: w := by
      intro w mem
      rw [cfg.extraOptions_parseOptionWords, noExtra, List.nil_append, List.mem_filter] at mem
      have unknown : ¬ Recognised w := by simpa using mem.2
      exact ⟨verbatim w mem.1 unknown, fun named => unknown (.inl named)⟩
    rw [fsNameWords_build extra, cfg.fsName_parseOptionWords]

/-- The source `/a,b\101` with a raw `x=\101` behind it, and a second name after a first. -/
theorem survive_comma_and_digits :
    mountWords libfuse false
        [.fsName [47, 97, 44, 98, 92, 49, 48, 49], .nonEmpty, .custom [120, 61, 92, 49, 48, 49]] =
      [fsnameKey ++ [47, 97, 44, 98, 92, 49, 48, 49], [120, 61, 65]] ∧
    fsNameWords (mountWords libfuse false (buildMountOptions
        ((MountConfig.new [97]).parseOptionWords [fsnameKey ++ [98], ro, fsnameKey ++ [44], [120]]))) =
      [fsnameKey ++ [44]] := by
  obtain ⟨survive, named⟩ := mount_options_survive libfuse false
  constructor
  · refine (survive _ ?_).2.trans (by decide)
    simp [MountOption.NulFree, MountOption.Paired]
    decide
  · exact named (MountConfig.new [97]) [fsnameKey ++ [98], ro, fsnameKey ++ [44], [120]] rfl
      (by decide)

end TypedFuse.Mount
