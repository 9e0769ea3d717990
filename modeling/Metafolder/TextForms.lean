import Metafolder.DateTexts
import Metafolder.DslLexed
import Metafolder.NameTexts

/-!
# Values converted to text and back

A value is read back from its text, but for a date between two seconds or outside the years that are
read, a name that is not text or that trimming changes, and a NaN with a payload.
-/

namespace Metafolder

/-- The NaN that is read. -/
def F64.nan : F64 := ⟨0x7FF8000000000000⟩

/-- What the functions that print and read uuids and floats do, as they are documented. -/
structure PrintedTexts [Externals] : Prop where
  /-- A uuid is read from its digits. -/
  uuid (uuid : Uuid) : Externals.parseUuid uuid.simple = some uuid
  /-- A number is read from its text exactly. -/
  number {f : F64} : f.isNaN = false → Externals.parseFloat (Externals.showFloat f) = some f
  /-- All NaNs are shown alike. -/
  nan {f : F64} : f.isNaN = true → Externals.showFloat f = "NaN"
  /-- What is shown is read as a NaN. -/
  parse_nan : Externals.parseFloat "NaN" = some F64.nan
  /-- There is no white space in the text of a float. -/
  plain (f : F64) : ∀ c ∈ (Externals.showFloat f).toList, isWhitespace c = false

/-- A name that is a text of some length, without a slash and without white space at its end. -/
def TextName (name : TreeName) : Prop :=
  ∃ text : String, name = .ofString text ∧ text ≠ "" ∧ '/' ∉ text.toList ∧
    ∀ c ∈ text.toList.getLast?, isWhitespace c = false

namespace Value

/-- The type of a value that has one. -/
def fieldType : Value → Option FieldType
  | nothing => none
  | string _ => some .string
  | int _ => some .int
  | float _ => some .float
  | bool _ => some .bool
  | dateTime _ => some .dateTime
  | ref _ => some .ref
  | treeRef _ _ => some .treeRef
  | hierarchyRef _ _ => some .hierarchyRef
  | refBase _ => some .refBase
  | externalRef _ _ => some .externalRef

/-- What is to hold of a value for its text to be read back. -/
def Reversible : Value → Prop
  | float f => f.isNaN = true → f = F64.nan
  | dateTime ms => 0 ≤ ms.toInt ∧ ms.toInt % 1000 = 0 ∧ ms.toInt < lastDay * 86400000
  | treeRef _ name => TextName name
  | hierarchyRef _ name => TextName name
  | _ => True

end Value

/-! ### Trimming -/

theorem isWhitespace_slash : isWhitespace '/' = false := by decide

/-- What is trimmed off a text that starts with something else is the white space at its end. -/
def trimEnd (text : List Char) : List Char := (text.reverse.dropWhile isWhitespace).reverse

theorem trim_append {front : List Char} (first : ∀ c ∈ front.head?, isWhitespace c = false)
    (text : List Char) : trim (front ++ '/' :: text) = front ++ '/' :: trimEnd text := by
  have start : (front ++ '/' :: text).dropWhile isWhitespace = front ++ '/' :: text := by
    cases front with
    | nil => rfl
    | cons c front => rw [List.cons_append, List.dropWhile_cons, if_neg (by simp [first c rfl])]
  have kept : ('/' :: front.reverse).dropWhile isWhitespace = '/' :: front.reverse := by
    rw [List.dropWhile_cons, if_neg (by simp [isWhitespace_slash])]
  have shown : (text.reverse ++ '/' :: front.reverse).dropWhile isWhitespace =
      text.reverse.dropWhile isWhitespace ++ '/' :: front.reverse := by
    rw [List.dropWhile_append, kept]
    split
    · next none =>
      rw [List.isEmpty_iff.mp none]
      rfl
    · rfl
  rw [trim, start, List.reverse_append, List.reverse_cons, List.append_assoc,
    List.singleton_append, shown, List.reverse_append, List.reverse_cons, List.reverse_reverse,
    List.append_assoc]
  rfl

/-- There is no white space where text was trimmed. -/
theorem getLast?_trimEnd (text : List Char) :
    ∀ c ∈ (trimEnd text).getLast?, isWhitespace c = false := by
  intro c last
  rw [trimEnd, List.getLast?_reverse] at last
  have stopped := List.head?_dropWhile_not isWhitespace text.reverse
  rw [Option.mem_def.mp last] at stopped
  simpa using stopped

theorem trimEnd_eq {text : List Char} (last : ∀ c ∈ text.getLast?, isWhitespace c = false) :
    trimEnd text = text := by
  rw [← List.head?_reverse] at last
  have kept : text.reverse.dropWhile isWhitespace = text.reverse := by
    cases shown : text.reverse with
    | nil => rfl
    | cons c rest =>
        rw [shown] at last
        rw [List.dropWhile_cons, if_neg (by simp [last c rfl])]
  rw [trimEnd, kept, List.reverse_reverse]

/-- What is trimmed has nothing left to trim. -/
theorem trim_trim (text : List Char) : trim (trim text) = trim text := by
  have first : ∀ c ∈ (text.dropWhile isWhitespace).head?, isWhitespace c = false := by
    intro c head
    have stopped := List.head?_dropWhile_not isWhitespace text
    rw [Option.mem_def.mp head] at stopped
    simpa using stopped
  have front : trim text <+: text.dropWhile isWhitespace := by
    rw [← List.reverse_suffix, trim, List.reverse_reverse]
    exact List.dropWhile_suffix _
  refine trim_eq (fun c head => first c ?_) (getLast?_trimEnd _)
  obtain ⟨rest, same⟩ := front
  rw [← same, List.head?_append, Option.mem_def.mp head]
  rfl

theorem isoToMs_trim (text : List Char) : isoToMs (trim text) = isoToMs text := by
  rw [isoToMs, isoToMs, trim_trim]

/-- A text without white space is not trimmed. -/
theorem trim_plain {text : List Char} (plain : ∀ c ∈ text, isWhitespace c = false) :
    trim text = text :=
  trim_eq (fun c head => plain c (List.mem_of_mem_head? head))
    fun c last => plain c (List.mem_of_getLast? last)

/-! ### Uuids -/

/-- The digits of a uuid are lower-case hexadecimal. -/
theorem mem_simple {uuid : Uuid} {c : Char} (member : c ∈ uuid.simple.toList) :
    c ∈ "0123456789abcdef".toList := by
  have digit : ∀ n, n < 16 → Uuid.hexDigit n ∈ "0123456789abcdef".toList := by decide
  have shown : uuid.simple.toList = uuid.bytes.flatMap Uuid.hexByte := String.toList_ofList
  rw [shown] at member
  obtain ⟨byte, -, inByte⟩ := List.mem_flatMap.mp member
  have small : byte.toNat < 256 := byte.toNat_lt
  rw [Uuid.hexByte, List.mem_cons, List.mem_singleton] at inByte
  rcases inByte with rfl | rfl
  · exact digit _ (by omega)
  · exact digit _ (by omega)

/-- Such a digit is neither white space nor a separator. -/
theorem plain_digit {c : Char} (member : c ∈ "0123456789abcdef".toList) :
    isWhitespace c = false ∧ c ≠ ':' ∧ c ≠ '/' := by
  have plain : ("0123456789abcdef".toList.all fun c =>
      !isWhitespace c && c != ':' && c != '/') = true := by decide
  simpa [and_assoc] using List.all_eq_true.mp plain c member

theorem plain_simple (uuid : Uuid) : ∀ c ∈ uuid.simple.toList, isWhitespace c = false :=
  fun _ member => (plain_digit (mem_simple member)).1

variable [Externals]

theorem parseHexUuid_simple (printed : PrintedTexts) (uuid : Uuid) :
    parseHexUuid uuid.simple.toList = some uuid := by
  rw [parseHexUuid, trim_plain (plain_simple uuid), String.ofList_toList]
  exact printed.uuid uuid

/-! ### Each type -/

/-- An external reference is read back. -/
theorem parseExternalRef_shown (printed : PrintedTexts) (repo metarecord : Uuid) :
    parseExternalRef (Value.externalRef repo metarecord).displayForm.toList =
      some (.externalRef repo metarecord) := by
  have shown : (Value.externalRef repo metarecord).displayForm.toList =
      repo.simple.toList ++ ':' :: metarecord.simple.toList := by
    rw [Value.displayForm, String.toList_append, String.toList_append, List.append_assoc]
    rfl
  have free : ∀ c ∈ repo.simple.toList, c ∉ [':'] := fun c member =>
    List.mem_singleton.not.mpr (plain_digit (mem_simple member)).2.1
  have plain : ∀ c ∈ repo.simple.toList ++ ':' :: metarecord.simple.toList,
      isWhitespace c = false := by
    intro c member
    rcases List.mem_append.mp member with first | rest
    · exact plain_simple repo c first
    · rcases List.mem_cons.mp rest with rfl | second
      · decide
      · exact plain_simple metarecord c second
  rw [parseExternalRef, shown, trim_plain plain,
    splitOnce_append _ List.mem_cons_self free, Option.bind_eq_bind, Option.bind_some]
  dsimp only
  rw [parseHexUuid_simple printed, parseHexUuid_simple printed]
  rfl

/-- What is read of a position is its parent and what is left of its name. -/
theorem parseTreeRef_shown (printed : PrintedTexts) (parent : Option Uuid) (text : String) :
    parseTreeRef ((parent.map Uuid.simple).getD "" ++ "/" ++ text).toList =
      if trimEnd text.toList = [] ∨ '/' ∈ trimEnd text.toList then none
      else some (parent, .ofString (String.ofList (trimEnd text.toList))) := by
  have shown : ((parent.map Uuid.simple).getD "" ++ "/" ++ text).toList =
      ((parent.map Uuid.simple).getD "").toList ++ '/' :: text.toList := by
    rw [String.toList_append, String.toList_append, List.append_assoc]
    rfl
  have front : ∀ c ∈ ((parent.map Uuid.simple).getD "").toList,
      c ∈ "0123456789abcdef".toList := by
    cases parent with
    | none => exact fun c member => nomatch member
    | some uuid => exact fun c member => mem_simple member
  have plain : ∀ c ∈ ((parent.map Uuid.simple).getD "").toList.head?, isWhitespace c = false :=
    fun c head => (plain_digit (front c (List.mem_of_mem_head? head))).1
  have free : ∀ c ∈ ((parent.map Uuid.simple).getD "").toList, c ∉ ['/'] := fun c member =>
    List.mem_singleton.not.mpr (plain_digit (front c member)).2.2
  rw [parseTreeRef, shown, trim_append plain, splitOnce_append _ List.mem_cons_self free,
    Option.bind_eq_bind, Option.bind_some]
  dsimp only
  split
  · rfl
  · cases parent with
    | none => rfl
    | some uuid =>
        have some_digit : uuid.simple.toList ≠ [] := by
          have shown : uuid.simple.toList = uuid.bytes.flatMap Uuid.hexByte := String.toList_ofList
          obtain ⟨byte, bytes, split⟩ := List.exists_cons_of_length_pos
            (uuid.size ▸ (by decide : 0 < 16))
          rw [shown, split]
          exact List.cons_ne_nil _ _
        rw [Option.map_some, Option.getD_some, if_neg some_digit, parseHexUuid_simple printed]
        rfl

/-- A position is read back exactly when its name is a text that trimming leaves. -/
theorem parseTreeRef_iff (printed : PrintedTexts) (parent : Option Uuid) (name : TreeName) :
    parseTreeRef ((parent.map Uuid.simple).getD "" ++ "/" ++ name.display).toList =
      some (parent, name) ↔ TextName name := by
  rw [parseTreeRef_shown printed]
  constructor
  · intro read
    split at read
    · cases read
    · next whole =>
      rw [not_or] at whole
      obtain ⟨-, same⟩ := Prod.mk.inj (Option.some.inj read)
      refine ⟨String.ofList (trimEnd name.display.toList), same.symm, ?_, ?_, ?_⟩
      · intro empty
        have none := congrArg String.toList empty
        rw [String.toList_ofList] at none
        exact whole.1 none
      · rw [String.toList_ofList]
        exact whole.2
      · rw [String.toList_ofList]
        exact getLast?_trimEnd _
  · rintro ⟨text, rfl, nonempty, free, last⟩
    rw [TreeName.display_ofString, trimEnd_eq last, String.ofList_toList, if_neg]
    rintro (none | slash)
    · exact nonempty (String.toList_inj.mp none)
    · exact free slash

omit [Externals] in
theorem toList_toString (n : Int64) : (toString n.toInt).toList = Dsl.decimal n := by
  rw [Dsl.decimal]
  cases n.toInt with
  | ofNat magnitude => exact String.toList_ofList
  | negSucc magnitude =>
      change ("-" ++ String.ofList (Nat.toDigits 10 (magnitude + 1))).toList = '-' :: _
      rw [String.toList_append, String.toList_ofList, String.toList_ofList]
      rfl

/-- An integer is read back. -/
theorem parseInt64_shown (n : Int64) :
    parseInt64 (trim (Value.int n).displayForm.toList) = some n := by
  have plain : ∀ c ∈ Dsl.decimal n, isWhitespace c = false := by
    intro c member
    rw [Dsl.decimal] at member
    cases value : n.toInt with
    | ofNat magnitude =>
        rw [value] at member
        exact isWhitespace_of_isDigit (isDigit_of_mem_decimalDigits member)
    | negSucc magnitude =>
        rw [value] at member
        rcases List.mem_cons.mp member with rfl | digit
        · decide
        · exact isWhitespace_of_isDigit (isDigit_of_mem_decimalDigits digit)
  change parseInt64 (trim (toString n.toInt).toList) = some n
  rw [toList_toString, trim_plain plain, Dsl.parseInt64_decimal]

/-- A float is read back exactly when it is a number or the NaN that is read. -/
theorem parseFloat_iff (printed : PrintedTexts) (f : F64) :
    Externals.parseFloat (String.ofList (trim (Externals.showFloat f).toList)) = some f ↔
      (f.isNaN = true → f = F64.nan) := by
  rw [trim_plain (printed.plain f), String.ofList_toList]
  cases number : f.isNaN with
  | false => exact iff_of_true (printed.number number) nofun
  | true =>
      rw [printed.nan number, printed.parse_nan, Option.some.injEq]
      exact ⟨fun same _ => same.symm, fun same => (same rfl).symm⟩

namespace Value

/-- A value converted to text and back, and whether either conversion fell back. -/
def thereAndBack (value : Value) (type : FieldType) : Value × Bool × Bool :=
  let shown := value.convertTo .string
  let read := shown.1.convertTo type
  (read.1, shown.2, read.2)

theorem thereAndBack_iff {value : Value} {type : FieldType} (something : value.isNothing = false) :
    value.thereAndBack type = (value, false, false) ↔
      (string value.displayForm).converted type = some value := by
  have shown : value.convertTo .string = (string value.displayForm, false) := by
    rw [convertTo, something]
    cases value with
    | nothing => cases something
    | _ => rfl
  have read : (string value.displayForm).convertTo type =
      orSentinel type ((string value.displayForm).converted type) := rfl
  rw [thereAndBack, shown]
  dsimp only
  rw [read]
  cases (string value.displayForm).converted type with
  | some result =>
      change (result, false, false) = (value, false, false) ↔ _
      rw [Prod.mk.injEq, Option.some.injEq]
      exact and_iff_left rfl
  | none => exact iff_of_false (fun same => by cases congrArg (fun out => out.2.2) same) nofun

/-- A date is read back exactly when it is on a whole second of a year that is read. -/
theorem converted_dateTime_iff (ms : Int64) :
    (string (dateTime ms).displayForm).converted .dateTime = some (dateTime ms) ↔
      0 ≤ ms.toInt ∧ ms.toInt % 1000 = 0 ∧ ms.toInt < lastDay * 86400000 := by
  change (isoToMs (Metafolder.trim (iso8601FromMs ms).toList)).map dateTime =
    some (dateTime ms) ↔ _
  rw [isoToMs_trim, Option.map_eq_some_iff]
  refine Iff.trans ?_ isoToMs_iso8601FromMs_iff
  constructor
  · rintro ⟨time, read, same⟩
    rw [read, dateTime.inj same]
  · exact fun read => ⟨ms, read, rfl⟩

/-- A value is read back from its text, neither conversion falling back, exactly when it is
reversible. -/
theorem thereAndBack_reversible (printed : PrintedTexts) {value : Value} {type : FieldType}
    (typed : value.fieldType = some type) :
    value.thereAndBack type = (value, false, false) ↔ value.Reversible := by
  have something : value.isNothing = false := by
    cases value with
    | nothing => cases typed
    | _ => rfl
  rw [thereAndBack_iff something]
  cases value with
  | nothing => cases typed
  | string text =>
      obtain rfl := Option.some.inj typed
      exact iff_of_true rfl trivial
  | int n =>
      obtain rfl := Option.some.inj typed
      refine iff_of_true ?_ trivial
      change (parseInt64 (Metafolder.trim (int n).displayForm.toList)).map int = some (int n)
      rw [parseInt64_shown]
      rfl
  | float f =>
      obtain rfl := Option.some.inj typed
      change (Externals.parseFloat (String.ofList
        (Metafolder.trim (Externals.showFloat f).toList))).map float = some (float f) ↔ _
      rw [Option.map_eq_some_iff]
      refine Iff.trans ?_ (parseFloat_iff printed f)
      constructor
      · rintro ⟨g, read, same⟩
        rw [read, float.inj same]
      · exact fun read => ⟨f, read, rfl⟩
  | bool b =>
      obtain rfl := Option.some.inj typed
      refine iff_of_true ?_ trivial
      cases b with
      | false =>
          have trimmed : Metafolder.trim "false".toList = "false".toList := by decide
          change (if Metafolder.trim "false".toList = "true".toList then some (bool true)
            else if Metafolder.trim "false".toList = "false".toList then some (bool false)
            else none) = some (bool false)
          rw [trimmed, if_neg (by decide), if_pos rfl]
      | true =>
          have trimmed : Metafolder.trim "true".toList = "true".toList := by decide
          change (if Metafolder.trim "true".toList = "true".toList then some (bool true)
            else if Metafolder.trim "true".toList = "false".toList then some (bool false)
            else none) = some (bool true)
          rw [trimmed, if_pos rfl]
  | dateTime ms =>
      obtain rfl := Option.some.inj typed
      exact converted_dateTime_iff ms
  | ref uuid =>
      obtain rfl := Option.some.inj typed
      refine iff_of_true ?_ trivial
      change (parseHexUuid uuid.simple.toList).map ref = _
      rw [parseHexUuid_simple printed]
      rfl
  | refBase uuid =>
      obtain rfl := Option.some.inj typed
      refine iff_of_true ?_ trivial
      change (parseHexUuid uuid.simple.toList).map refBase = _
      rw [parseHexUuid_simple printed]
      rfl
  | treeRef parent name =>
      obtain rfl := Option.some.inj typed
      change (parseTreeRef ((parent.map Uuid.simple).getD "" ++ "/" ++ name.display).toList).map
        (fun held => treeRef held.1 held.2) = some (treeRef parent name) ↔ _
      rw [Option.map_eq_some_iff]
      refine Iff.trans ?_ (parseTreeRef_iff printed parent name)
      constructor
      · rintro ⟨⟨owner, node⟩, read, same⟩
        obtain ⟨rfl, rfl⟩ := treeRef.inj same
        exact read
      · exact fun read => ⟨_, read, rfl⟩
  | hierarchyRef parent name =>
      obtain rfl := Option.some.inj typed
      change (parseTreeRef ((parent.map Uuid.simple).getD "" ++ "/" ++ name.display).toList).map
        (fun held => hierarchyRef held.1 held.2) = some (hierarchyRef parent name) ↔ _
      rw [Option.map_eq_some_iff]
      refine Iff.trans ?_ (parseTreeRef_iff printed parent name)
      constructor
      · rintro ⟨⟨owner, node⟩, read, same⟩
        obtain ⟨rfl, rfl⟩ := hierarchyRef.inj same
        exact read
      · exact fun read => ⟨_, read, rfl⟩
  | externalRef repo metarecord =>
      obtain rfl := Option.some.inj typed
      exact iff_of_true (parseExternalRef_shown printed repo metarecord) trivial

end Value

/-! ### A value on plain texts -/

/-- The number one. -/
def F64.one : F64 := ⟨0x3FF0000000000000⟩

/-- Functions for a run on fixed inputs: floats are shown and read as the program does for the
number one and the NaN, and by their bits for others. -/
abbrev printingExternals : Externals where
  xxh3 := plainExternals.xxh3
  showFloat f :=
    if f.isNaN then "NaN" else if f = F64.one then "1"
    else String.ofList ('x' :: Nat.toDigits 10 f.bits.toNat)
  parseFloat text :=
    if text = "NaN" then some F64.nan else if text = "1" then some F64.one
    else (digits text.toList.tail 0).map fun bits => ⟨UInt64.ofNat bits⟩
  parseUuid := plainExternals.parseUuid
  toLowercase := plainExternals.toLowercase
  debug := plainExternals.debug

omit [Externals] in
theorem printedTexts_printing : @PrintedTexts printingExternals := by
  let _ : Externals := printingExternals
  have shown (f : F64) (number : f.isNaN = false) (other : f ≠ F64.one) :
      Externals.showFloat f = String.ofList ('x' :: Nat.toDigits 10 f.bits.toNat) := by
    change (if f.isNaN then _ else if f = F64.one then _ else _) = _
    rw [number, if_neg nofun, if_neg other]
  refine ⟨fun uuid => ?_, fun {f} number => ?_, fun {f} nan => if_pos nan, rfl, fun f => ?_⟩
  · have read : hexBytes uuid.simple.toList = some uuid.bytes := by
      rw [← hexBytes_hexByte uuid.bytes]
      exact congrArg hexBytes String.toList_ofList
    change (hexBytes uuid.simple.toList).bind _ = _
    rw [read, Option.bind_some, dif_pos uuid.size]
  · by_cases one : f = F64.one
    · subst one
      rfl
    · have first (text : String) (differ : text.toList.head? ≠ some 'x') :
          String.ofList ('x' :: Nat.toDigits 10 f.bits.toNat) ≠ text := by
        rintro rfl
        rw [String.toList_ofList] at differ
        exact differ rfl
      rw [shown f number one]
      change (if _ = "NaN" then _ else if _ = "1" then _ else _) = _
      rw [if_neg (first "NaN" (by decide)), if_neg (first "1" (by decide)), String.toList_ofList,
        List.tail_cons, digits_toDigits, Option.map_some, UInt64.ofNat_toNat]
  · cases number : f.isNaN with
    | true =>
        have none : ("NaN".toList.all fun c => !isWhitespace c) = true := by decide
        change ∀ c ∈ (if f.isNaN then _ else _ : String).toList, _
        rw [number, if_pos rfl]
        simpa using List.all_eq_true.mp none
    | false =>
        by_cases one : f = F64.one
        · subst one
          have none : ("1".toList.all fun c => !isWhitespace c) = true := by decide
          change ∀ c ∈ "1".toList, _
          simpa using List.all_eq_true.mp none
        · rw [shown f number one, String.toList_ofList]
          intro c member
          rcases List.mem_cons.mp member with rfl | digit
          · decide
          · exact isWhitespace_of_isDigit (isDigit_of_mem_decimalDigits digit)

omit [Externals] in
/-- The number one is read back from its text. -/
theorem thereAndBack_one :
    letI : Externals := printingExternals
    PrintedTexts ∧ (Value.float F64.one).fieldType = some .float ∧
      ((Value.float F64.one).thereAndBack .float = (.float F64.one, false, false) ↔
        (Value.float F64.one).Reversible) :=
  ⟨printedTexts_printing, rfl,
    @Value.thereAndBack_reversible printingExternals printedTexts_printing (.float F64.one) .float
      rfl⟩

omit [Externals] in
/-- A date between two seconds is not read back. -/
theorem half_second_lost :
    letI : Externals := printingExternals
    ¬ ∀ (value : Value) (type : FieldType), value.fieldType = some type →
      value.thereAndBack type = (value, false, false) := by
  let _ : Externals := printingExternals
  intro always
  have back := always (.dateTime 1500) .dateTime rfl
  rw [Value.thereAndBack_iff rfl] at back
  have whole := ((Value.converted_dateTime_iff 1500).mp back).2.1
  revert whole
  decide

end Metafolder
