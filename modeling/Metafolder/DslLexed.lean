import Metafolder.Decimals
import Metafolder.Dsl
import Mathlib.Data.List.TakeWhile

/-!
# Tokens and their texts

The text of a token, the tokens a text can hold, and the lexer read in both directions: what it
finds are tokens that have a text, and from the texts of such tokens it finds the tokens again.
-/

namespace Metafolder.Dsl

/-! ### Runs of characters -/

section Runs

variable {p : Char → Bool} {run rest : List Char}

theorem takeWhile_run (all : ∀ c ∈ run, p c) (ends : rest.head?.any p = Bool.false) :
    (run ++ rest).takeWhile p = run := by
  rw [List.takeWhile_append_of_pos all]
  cases rest with
  | nil => simp
  | cons c rest => simp_all

theorem dropWhile_run (all : ∀ c ∈ run, p c) (ends : rest.head?.any p = Bool.false) :
    (run ++ rest).dropWhile p = rest := by
  rw [List.dropWhile_append_of_pos all]
  cases rest with
  | nil => simp
  | cons c rest => simp_all

theorem head?_dropWhile_any (p : Char → Bool) (text : List Char) :
    (text.dropWhile p).head?.any p = Bool.false := by
  have stops := List.head?_dropWhile_not p text
  cases first : (text.dropWhile p).head? with
  | none => rfl
  | some c => simpa [first] using stops

end Runs

/-! ### Numbers -/

/-- The text of a number in decimal. -/
def decimal (n : Int64) : List Char :=
  match n.toInt with
  | .ofNat magnitude => Nat.toDigits 10 magnitude
  | .negSucc magnitude => '-' :: Nat.toDigits 10 (magnitude + 1)

theorem isAlpha_iff {c : Char} : c.isAlpha = Bool.true ↔
    (65 ≤ c.toNat ∧ c.toNat ≤ 90) ∨ (97 ≤ c.toNat ∧ c.toNat ≤ 122) := by
  change (decide ('A'.val ≤ c.val ∧ c.val ≤ 'Z'.val) ||
    (decide ('a'.val ≤ c.val) && decide (c.val ≤ 'z'.val))) = Bool.true ↔ _
  simp only [Bool.or_eq_true, Bool.and_eq_true, decide_eq_true_eq, UInt32.le_iff_toNat_le]
  rfl

theorem isAlpha_of_hexdigit {c : Char} (hex : isAsciiHexdigit c) :
    c.toNat < 128 ∧ (c.isAlpha || c.isDigit) = Bool.true := by
  simp only [isAsciiHexdigit, Char.le_def, Bool.or_eq_true, Bool.and_eq_true, decide_eq_true_eq,
    UInt32.le_iff_toNat_le] at hex
  have same : c.toNat = c.val.toNat := rfl
  rcases hex with (digit | ⟨low, high⟩) | ⟨low, high⟩
  · have bounds := isDigit_bounds digit
    exact ⟨by omega, by simp [digit]⟩
  · have low : 97 ≤ c.val.toNat := low
    have high : c.val.toNat ≤ 102 := high
    refine ⟨by omega, ?_⟩
    rw [isAlpha_iff.mpr (.inr ⟨by omega, by omega⟩), Bool.true_or]
  · have low : 65 ≤ c.val.toNat := low
    have high : c.val.toNat ≤ 70 := high
    refine ⟨by omega, ?_⟩
    rw [isAlpha_iff.mpr (.inl ⟨by omega, by omega⟩), Bool.true_or]

theorem isAsciiHexdigit_of_isDigit {c : Char} (digit : c.isDigit) : isAsciiHexdigit c := by
  simp [isAsciiHexdigit, digit]

theorem not_isAlpha_of_isDigit {c : Char} (digit : c.isDigit) : c.isAlpha = Bool.false := by
  have bounds := isDigit_bounds digit
  by_contra letter
  rw [Bool.not_eq_false, isAlpha_iff] at letter
  omega

/-- A number read back from its text. -/
theorem parseInt64_decimal (n : Int64) : parseInt64 (decimal n) = some n := by
  have lower := n.le_toInt
  have upper := n.toInt_lt
  have back : Int64.ofInt n.toInt = n := Int64.ofInt_toInt n
  unfold decimal
  cases value : n.toInt with
  | ofNat magnitude =>
      rw [value] at back upper
      have fits : magnitude < 2 ^ 63 := by
        simp only [Int.ofNat_eq_natCast] at upper
        omega
      simpa using (parseInt64_digits fits).trans (congrArg some back)
  | negSucc magnitude =>
      rw [value] at back lower
      have fits : magnitude + 1 ≤ 2 ^ 63 := by omega
      exact (parseInt64_minus fits).trans (congrArg some back)

/-! ### Strings -/

/-- The text of a string literal, after the opening quote. -/
def quoted : List Char → List Char
  | [] => ['"']
  | c :: rest => if c = '"' ∨ c = '\\' then '\\' :: c :: quoted rest else c :: quoted rest

theorem lexString_quote (rest : List Char) : lexString ('"' :: rest) = .ok ([], rest) := by
  rw [lexString.eq_def]
  exact if_pos rfl

theorem lexString_escape (escaped : Char) (rest : List Char) :
    lexString ('\\' :: escaped :: rest) =
      (fun read => ((if escaped = '"' ∨ escaped = '\\' then [escaped] else ['\\', escaped]) ++ read.1,
        read.2)) <$> lexString rest := by
  rw [lexString.eq_def]
  rfl

theorem lexString_plain {c : Char} (notQuote : c ≠ '"') (notBackslash : c ≠ '\\')
    (rest : List Char) :
    lexString (c :: rest) = (fun read => (c :: read.1, read.2)) <$> lexString rest := by
  rw [lexString.eq_def]
  simp only [notQuote, notBackslash, if_false]

/-- A string literal is read back. -/
theorem lexString_quoted (text rest : List Char) :
    lexString (quoted text ++ rest) = .ok (text, rest) := by
  induction text with
  | nil => exact lexString_quote rest
  | cons c text ih =>
      by_cases special : c = '"' ∨ c = '\\'
      · have escaped : quoted (c :: text) = '\\' :: c :: quoted text := by simp [quoted, special]
        rw [escaped, List.cons_append, List.cons_append, lexString_escape, ih, if_pos special]
        rfl
      · obtain ⟨notQuote, notBackslash⟩ := not_or.mp special
        have kept : quoted (c :: text) = c :: quoted text := by simp [quoted, notQuote, notBackslash]
        rw [kept, List.cons_append, lexString_plain notQuote notBackslash, ih]
        rfl

variable [Externals] [CharClasses]

/-! ### What the lexer relies on -/

/-- The documented behaviour of the classes of characters and of the uuids: the classes are the
usual ones on ASCII, white space is not alphabetic, and a uuid is read back from its simple form. -/
structure Documented : Prop where
  /-- An ASCII character is alphabetic where it is a letter. -/
  alphabetic : ∀ c : Char, c.toNat < 128 → CharClasses.isAlphabetic c = c.isAlpha
  /-- An ASCII character is numeric where it is a digit. -/
  numeric : ∀ c : Char, c.toNat < 128 → CharClasses.isNumeric c = c.isDigit
  /-- White space is not alphabetic. -/
  whitespace : ∀ c, isWhitespace c → CharClasses.isAlphabetic c = Bool.false
  /-- A uuid is read back from its 32 digits. -/
  simple : ∀ uuid : Uuid, Externals.parseUuid uuid.simple = some uuid

/-- The characters a word can start with. -/
def isWordStart (c : Char) : Bool := CharClasses.isAlphabetic c || c = '_'

/-- A run of 32 hexadecimal digits. -/
def HexText (text : List Char) : Prop := text.length = 32 ∧ ∀ c ∈ text, isAsciiHexdigit c

/-- The texts of the words: not a run the lexer takes for a uuid. -/
def WordText (text : List Char) : Prop :=
  text.head?.any isWordStart ∧ (∀ c ∈ text, isWordChar c) ∧ ¬HexText text

/-- The texts the lexer reads as a float. -/
def Numeral (text : List Char) (f : F64) : Prop :=
  ∃ sign whole fraction, text = sign ++ whole ++ '.' :: fraction ∧
    (sign = ['-'] ∨ sign = [] ∧ whole.length ≠ 32) ∧ whole ≠ [] ∧ (∀ c ∈ whole, c.isDigit) ∧
    (∀ c ∈ fraction, c.isDigit) ∧ Externals.parseFloat (String.ofList text) = some f

/-- A way to write floats: each float some text is read as, as a text that is read as it. -/
structure Numerals where
  /-- The text of a float. -/
  write : F64 → List Char
  /-- What is written is read back. -/
  numeral : ∀ text f, Numeral text f → Numeral (write f) f

/-- The tokens that have a text. -/
def Tok.Lexable : Tok → Prop
  | .ident name => WordText name ∧ wordToken name = .ident name
  | .hex text => HexText text
  | .float f => ∃ text, Numeral text f
  | _ => True

/-- The text of a token. -/
def Tok.text (numerals : Numerals) : Tok → List Char
  | .lParen => ['(']
  | .rParen => [')']
  | .comma => [',']
  | .colon => [':']
  | .arrow => ['-', '>']
  | .arrowStar => ['-', '>', '*']
  | .fatArrowStar => ['=', '>', '*']
  | .hex text => text
  | .eq => ['=']
  | .neq => ['!', '=']
  | .lt => ['<']
  | .lte => ['<', '=']
  | .gt => ['>']
  | .gte => ['>', '=']
  | .str text => '"' :: quoted text
  | .int n => decimal n
  | .float f => numerals.write f
  | .dateTime ms => '@' :: decimal ms
  | .ident name => name
  | .and => "AND".toList
  | .or => "OR".toList
  | .not => "NOT".toList
  | .is => "IS".toList
  | .present => "PRESENT".toList
  | .absent => "ABSENT".toList
  | .unknown => "UNKNOWN".toList
  | .matching => "MATCHES".toList
  | .true => "true".toList
  | .false => "false".toList

/-- The text of some tokens, each followed by a space. -/
def spell (numerals : Numerals) (toks : List Tok) : List Char :=
  toks.flatMap fun tok => tok.text numerals ++ [' ']

/-! ### Characters -/

omit [Externals] in
theorem isWordChar_of_isWordStart {c : Char} (starts : isWordStart c) : isWordChar c := by
  have letter : CharClasses.isAlphabetic c = Bool.true ∨ c = '_' := by
    simpa [isWordStart] using starts
  rcases letter with letter | underscore
  · simp [isWordChar, isAlphanumeric, letter]
  · simp [isWordChar, underscore]

namespace Documented

variable (documented : Documented)

include documented

/-- The word characters among those of ASCII. -/
theorem isWordChar_ascii {c : Char} (ascii : c.toNat < 128) :
    isWordChar c = (c.isAlpha || c.isDigit || c = '_') := by
  simp [isWordChar, isAlphanumeric, documented.alphabetic c ascii, documented.numeric c ascii]

theorem isWordStart_ascii {c : Char} (ascii : c.toNat < 128) :
    isWordStart c = (c.isAlpha || c = '_') := by
  simp [isWordStart, documented.alphabetic c ascii]

theorem isWordChar_hexdigit {c : Char} (hex : isAsciiHexdigit c) : isWordChar c := by
  obtain ⟨ascii, alphanumeric⟩ := isAlpha_of_hexdigit hex
  rw [documented.isWordChar_ascii ascii, alphanumeric, Bool.true_or]

/-- A word starts with none of the other characters of ASCII. -/
theorem ne_of_isWordStart {c other : Char} (starts : isWordStart c) (ascii : other.toNat < 128)
    (others : (other.isAlpha || other = '_') = Bool.false) : c ≠ other := by
  intro same
  subst same
  rw [documented.isWordStart_ascii ascii, others] at starts
  exact Bool.false_ne_true starts

theorem not_isDigit_of_isWordStart {c : Char} (starts : isWordStart c) : c.isDigit = Bool.false := by
  by_contra digit
  have digit : c.isDigit = Bool.true := by simpa using digit
  have bounds := isDigit_bounds digit
  rw [documented.isWordStart_ascii (by omega)] at starts
  rw [Bool.or_eq_true, isAlpha_iff, decide_eq_true_eq] at starts
  have underscore : c = '_' → c.toNat = 95 := by
    intro same
    rw [same]
    rfl
  rcases starts with letter | same
  · omega
  · have := underscore same
    omega

theorem not_isWhitespace_of_isWordStart {c : Char} (starts : isWordStart c) :
    isWhitespace c = Bool.false := by
  by_contra white
  have white : isWhitespace c = Bool.true := by simpa using white
  have notLetter := documented.whitespace c white
  have underscore : c = '_' := by simpa [isWordStart, notLetter] using starts
  subst underscore
  exact absurd white (by decide)

/-- A space ends a word and a run of hexadecimal digits. -/
theorem space_not_isWordChar : isWordChar ' ' = Bool.false := by
  rw [documented.isWordChar_ascii (by decide)]
  rfl

end Documented

/-! ### From the text of a token to the token -/

/-- A word is not taken for a run of hexadecimal digits. -/
theorem lexHexRun_word (documented : Documented) {c : Char} {word rest : List Char}
    (starts : isWordStart c) (all : ∀ d ∈ c :: word, isWordChar d) (notHex : ¬HexText (c :: word)) :
    lexHexRun (c :: word ++ ' ' :: rest) = .ok none := by
  by_cases hexadecimal : ∀ d ∈ c :: word, isAsciiHexdigit d
  · have ends : (' ' :: rest).head?.any isAsciiHexdigit = Bool.false := rfl
    have short : (c :: word).length ≠ 32 := fun full => notHex ⟨full, hexadecimal⟩
    simp only [lexHexRun, takeWhile_run hexadecimal ends, dropWhile_run hexadecimal ends,
      List.head?_cons, Option.any_some, documented.space_not_isWordChar, short,
      documented.not_isDigit_of_isWordStart starts]
    simp
  · have stops : ∃ d more, (c :: word).dropWhile isAsciiHexdigit = d :: more := by
      cases remains : (c :: word).dropWhile isAsciiHexdigit with
      | nil => exact absurd (List.dropWhile_eq_nil_iff.mp remains) hexadecimal
      | cons d more => exact ⟨d, more, rfl⟩
    obtain ⟨d, more, remains⟩ := stops
    have inWord : d ∈ c :: word :=
      (List.dropWhile_suffix isAsciiHexdigit).subset (by rw [remains]; simp)
    have goesOn : (c :: word ++ ' ' :: rest).dropWhile isAsciiHexdigit = d :: (more ++ ' ' :: rest) := by
      rw [List.dropWhile_append, remains]
      rfl
    rw [lexHexRun, goesOn]
    simp only [List.head?_cons, Option.any_some, all d inWord, if_true]

/-- The characters that start a token of their own. -/
def symbols : List Char := ['(', ')', ',', ':', '=', '!', '<', '>', '-', '"', '@']

/-- Past white space and the symbols, the lexer reads a number or a word. -/
theorem lexSymbol_other {c : Char} {rest : List Char} (visible : isWhitespace c = Bool.false)
    (other : ∀ symbol ∈ symbols, c ≠ symbol) :
    lexSymbol c rest =
      if c.isDigit then found (lexNumber (c :: rest))
      else if isWordStart c then found (.ok (lexWord (c :: rest)))
      else .error s!"unexpected character '{c}'" := by
  simp only [symbols, List.forall_mem_cons, List.not_mem_nil, false_implies, implies_true] at other
  obtain ⟨h1, h2, h3, h4, h5, h6, h7, h8, h9, h10, h11, -⟩ := other
  simp only [lexSymbol, visible, h1, h2, h3, h4, h5, h6, h7, h8, h9, h10, h11, Bool.false_eq_true,
    if_false, isWordStart]
  rfl

theorem lexSymbol_word (documented : Documented) {c : Char} {word : List Char}
    (starts : isWordStart c) (all : ∀ d ∈ c :: word, isWordChar d) (rest : List Char) :
    lexSymbol c (word ++ ' ' :: rest) = .ok (some (wordToken (c :: word)), ' ' :: rest) := by
  have other : ∀ symbol ∈ symbols, c ≠ symbol := by
    intro symbol member
    have all : symbols.all (fun symbol =>
        symbol.toNat < 128 && !(symbol.isAlpha || symbol = '_')) = Bool.true := rfl
    have plain := List.all_eq_true.mp all symbol member
    rw [Bool.and_eq_true, decide_eq_true_eq, Bool.not_eq_true'] at plain
    exact documented.ne_of_isWordStart starts plain.1 plain.2
  have ends : (' ' :: rest).head?.any isWordChar = Bool.false := documented.space_not_isWordChar
  have taken : (c :: (word ++ ' ' :: rest)).takeWhile isWordChar = c :: word :=
    takeWhile_run all ends
  have left : (c :: (word ++ ' ' :: rest)).dropWhile isWordChar = ' ' :: rest :=
    dropWhile_run all ends
  rw [lexSymbol_other (documented.not_isWhitespace_of_isWordStart starts) other,
    documented.not_isDigit_of_isWordStart starts, if_neg Bool.false_ne_true, if_pos starts,
    lexWord, taken, left]
  rfl

/-- A word is read as its token. -/
theorem lexStep_word (documented : Documented) {c : Char} {word rest : List Char}
    (text : WordText (c :: word)) :
    lexStep c (word ++ ' ' :: rest) = .ok (some (wordToken (c :: word)), ' ' :: rest) := by
  obtain ⟨starts, all, notHex⟩ := text
  have starts : isWordStart c := by simpa using starts
  have run : lexHexRun (c :: (word ++ ' ' :: rest)) = .ok none :=
    lexHexRun_word documented starts all notHex
  have symbol := lexSymbol_word documented starts all rest
  cases hex : isAsciiHexdigit c <;>
    simp [lexStep, hex, run, symbol, bind, Except.bind]

/-- A run of 32 hexadecimal digits is read as one token. -/
theorem lexStep_hex (documented : Documented) {c : Char} {more rest : List Char}
    (text : HexText (c :: more)) :
    lexStep c (more ++ ' ' :: rest) = .ok (some (.hex (c :: more)), ' ' :: rest) := by
  obtain ⟨full, all⟩ := text
  have ends : (' ' :: rest).head?.any isAsciiHexdigit = Bool.false := rfl
  have hex : isAsciiHexdigit c := all c (by simp)
  have taken : (c :: (more ++ ' ' :: rest)).takeWhile isAsciiHexdigit = c :: more :=
    takeWhile_run all ends
  have left : (c :: (more ++ ' ' :: rest)).dropWhile isAsciiHexdigit = ' ' :: rest :=
    dropWhile_run all ends
  have run : lexHexRun (c :: (more ++ ' ' :: rest)) = .ok (some (.hex (c :: more), ' ' :: rest)) := by
    simp only [lexHexRun, taken, left, List.head?_cons, Option.any_some,
      documented.space_not_isWordChar, Bool.false_eq_true, if_false, full, if_true]
  simp [lexStep, hex, run, bind, Except.bind]

/-- A run of digits that is not 32 long is not taken for a uuid. -/
theorem lexHexRun_digits {c stop : Char} {digits : List Char} (rest : List Char)
    (all : ∀ d ∈ c :: digits, d.isDigit) (stops : isWordChar stop = Bool.false)
    (notHex : isAsciiHexdigit stop = Bool.false) (notDash : stop ≠ '-')
    (short : (c :: digits).length ≠ 32) :
    lexHexRun (c :: (digits ++ stop :: rest)) = .ok none := by
  have hexadecimal : ∀ d ∈ c :: digits, isAsciiHexdigit d :=
    fun d member => isAsciiHexdigit_of_isDigit (all d member)
  have ends : (stop :: rest).head?.any isAsciiHexdigit = Bool.false := notHex
  have taken : (c :: (digits ++ stop :: rest)).takeWhile isAsciiHexdigit = c :: digits :=
    takeWhile_run hexadecimal ends
  have left : (c :: (digits ++ stop :: rest)).dropWhile isAsciiHexdigit = stop :: rest :=
    dropWhile_run hexadecimal ends
  have noLetter : (c :: digits).any Char.isAlpha = Bool.false := by
    rw [List.any_eq_false]
    intro d member
    simp [not_isAlpha_of_isDigit (all d member)]
  have notDash : (some stop : Option Char) ≠ some '-' := by simpa using notDash
  simp only [lexHexRun, taken, left, List.head?_cons, Option.any_some, stops, Bool.false_eq_true,
    if_false, short, notDash, noLetter, Bool.and_false, Bool.false_and]

/-- The lexer past a digit. -/
theorem lexSymbol_digit {c : Char} (digit : c.isDigit) (rest : List Char) :
    lexSymbol c rest = found (lexNumber (c :: rest)) := by
  have other : ∀ symbol ∈ symbols, c ≠ symbol := by
    intro symbol member
    have all : symbols.all (fun symbol => !symbol.isDigit) = Bool.true := rfl
    have plain := List.all_eq_true.mp all symbol member
    rw [Bool.not_eq_true'] at plain
    exact ne_of_isDigit digit plain
  rw [lexSymbol_other (isWhitespace_of_isDigit digit) other, if_pos digit]

/-- The sign of a number and its digits. -/
structure Signed (sign whole : List Char) : Prop where
  /-- The sign is a dash or nothing. -/
  sign : sign = ['-'] ∨ sign = []
  /-- There is a digit. -/
  nonempty : whole ≠ []
  /-- All are digits. -/
  all : ∀ c ∈ whole, c.isDigit

omit [CharClasses] in
theorem lexNumber_split {sign whole rest : List Char} (signed : Signed sign whole)
    (ends : rest.head?.any Char.isDigit = Bool.false) :
    lexNumber (sign ++ (whole ++ rest)) = lexFraction (sign ++ whole) rest := by
  have taken := takeWhile_run signed.all ends
  have left := dropWhile_run signed.all ends
  rcases signed.sign with rfl | rfl
  · simp only [lexNumber, List.cons_append, List.nil_append, List.head?_cons, if_true,
      List.drop_succ_cons, List.drop_zero, taken, left]
  · obtain ⟨c, digits, shape⟩ := List.exists_cons_of_ne_nil signed.nonempty
    have notDash : c ≠ '-' := ne_of_isDigit (signed.all c (by rw [shape]; simp)) rfl
    have unsigned : (whole ++ rest).head? ≠ some '-' := by simpa [shape] using notDash
    simp only [lexNumber, List.nil_append, unsigned, if_false, taken, left]

omit [CharClasses] in
/-- The digits of a number before a space. -/
theorem lexNumber_int {sign whole : List Char} {n : Int64} (signed : Signed sign whole)
    (value : parseInt64 (sign ++ whole) = some n) (rest : List Char) :
    lexNumber (sign ++ (whole ++ ' ' :: rest)) = .ok (.int n, ' ' :: rest) := by
  rw [lexNumber_split signed rfl]
  simp [lexFraction, value]

omit [CharClasses] in
/-- A numeral before a space. -/
theorem lexNumber_float {sign whole fraction rest : List Char} {f : F64}
    (signed : Signed sign whole) (all : ∀ c ∈ fraction, c.isDigit)
    (value : Externals.parseFloat (String.ofList (sign ++ whole ++ '.' :: fraction)) = some f) :
    lexNumber (sign ++ (whole ++ '.' :: (fraction ++ ' ' :: rest))) = .ok (.float f, ' ' :: rest) := by
  have ends : (' ' :: rest).head?.any Char.isDigit = Bool.false := rfl
  rw [lexNumber_split signed rfl]
  simp only [lexFraction, takeWhile_run all ends, dropWhile_run all ends, value]

theorem lexStep_symbol {c : Char} {rest : List Char} (notHex : isAsciiHexdigit c = Bool.false) :
    lexStep c rest = lexSymbol c rest := by
  simp [lexStep, notHex, bind, Except.bind]

omit [CharClasses] in
theorem lexDash_digit {c : Char} (digit : c.isDigit) (rest : List Char) :
    lexDash (c :: rest) = found (lexNumber ('-' :: c :: rest)) := by
  have notGreater : c ≠ '>' := ne_of_isDigit digit rfl
  unfold lexDash
  split
  · exact absurd (List.cons.inj ‹_›).1 notGreater
  · exact absurd (List.cons.inj ‹_›).1 notGreater
  · exact if_pos (by simpa using digit)

/-- What the lexer reads a text as, before a space. -/
def Reads (text : List Char) (tok : Tok) : Prop :=
  ∃ c more, text = c :: more ∧
    ∀ rest, lexStep c (more ++ ' ' :: rest) = .ok (some tok, ' ' :: rest)

/-- A number is read, with its sign, past the runs taken for uuids. -/
theorem reads_number {sign whole : List Char} (tail : List Char) {tok : Tok}
    (signed : Signed sign whole)
    (short : sign = [] → whole.length ≠ 32)
    (stops : ∀ rest, ∃ stop later, tail ++ ' ' :: rest = stop :: later ∧
      isWordChar stop = Bool.false ∧ isAsciiHexdigit stop = Bool.false ∧ stop ≠ '-')
    (number : ∀ rest,
      lexNumber (sign ++ (whole ++ (tail ++ ' ' :: rest))) = .ok (tok, ' ' :: rest)) :
    Reads (sign ++ (whole ++ tail)) tok := by
  obtain ⟨d, digits, shape⟩ := List.exists_cons_of_ne_nil signed.nonempty
  subst shape
  have digit : d.isDigit := signed.all d (by simp)
  rcases signed.sign with rfl | rfl
  · refine ⟨'-', d :: digits ++ tail, rfl, fun rest => ?_⟩
    have read := number rest
    simp only [List.cons_append, List.nil_append, List.append_assoc] at read ⊢
    rw [lexStep_symbol rfl, show ∀ rest, lexSymbol '-' rest = lexDash rest from fun _ => rfl,
      lexDash_digit digit, read]
    rfl
  · refine ⟨d, digits ++ tail, rfl, fun rest => ?_⟩
    obtain ⟨stop, later, shape, notWord, notHex, notDash⟩ := stops rest
    have read := number rest
    have run := lexHexRun_digits later signed.all notWord notHex notDash (short rfl)
    simp only [List.cons_append, List.nil_append, List.append_assoc, shape] at read run ⊢
    simp [lexStep, isAsciiHexdigit_of_isDigit digit, run, lexSymbol_digit digit, read, bind,
      Except.bind, found]

omit [Externals] [CharClasses] in
theorem decimal_signed (n : Int64) :
    ∃ sign whole, decimal n = sign ++ whole ∧ Signed sign whole ∧ (sign = [] → whole.length ≠ 32) := by
  have upper := n.toInt_lt
  unfold decimal
  cases value : n.toInt with
  | ofNat magnitude =>
      refine ⟨[], Nat.toDigits 10 magnitude, rfl,
        ⟨.inr rfl, Nat.toDigits_ne_nil, fun c => isDigit_of_mem_decimalDigits⟩, fun _ => ?_⟩
      have fits : magnitude < 10 ^ 19 := by
        rw [value, Int.ofNat_eq_natCast] at upper
        omega
      have short := (Nat.length_toDigits_le_iff (by decide) (by decide)).mpr fits
      omega
  | negSucc magnitude =>
      exact ⟨['-'], Nat.toDigits 10 (magnitude + 1), rfl,
        ⟨.inl rfl, Nat.toDigits_ne_nil, fun c => isDigit_of_mem_decimalDigits⟩, by simp⟩

/-- An integer is read back. -/
theorem reads_int (documented : Documented) (n : Int64) : Reads (decimal n) (.int n) := by
  obtain ⟨sign, whole, shape, signed, short⟩ := decimal_signed n
  have value : parseInt64 (sign ++ whole) = some n := shape ▸ parseInt64_decimal n
  have read := reads_number [] signed short
    (fun rest => ⟨' ', rest, rfl, documented.space_not_isWordChar, rfl, by decide⟩)
    (fun rest => lexNumber_int signed value rest)
  rw [shape]
  simpa using read

/-- A float is read back. -/
theorem reads_numeral (documented : Documented) {text : List Char} {f : F64}
    (numeral : Numeral text f) : Reads text (.float f) := by
  obtain ⟨sign, whole, fraction, rfl, signs, nonempty, digits, fractional, value⟩ := numeral
  have signed : Signed sign whole := ⟨signs.imp id And.left, nonempty, digits⟩
  have short : sign = [] → whole.length ≠ 32 := by
    intro unsigned
    rcases signs with dash | ⟨-, short⟩
    · simp [unsigned] at dash
    · exact short
  have notWord : isWordChar '.' = Bool.false := by
    rw [documented.isWordChar_ascii (by decide)]
    rfl
  have read := reads_number ('.' :: fraction) signed short
    (fun rest => ⟨'.', fraction ++ ' ' :: rest, rfl, notWord, rfl, by decide⟩)
    (fun rest => lexNumber_float signed fractional value)
  simpa using read

/-- A date is read back from its milliseconds. -/
theorem reads_dateTime (ms : Int64) : Reads ('@' :: decimal ms) (.dateTime ms) := by
  refine ⟨'@', decimal ms, rfl, fun rest => ?_⟩
  obtain ⟨sign, whole, shape, signed, -⟩ := decimal_signed ms
  have value : parseInt64 (sign ++ whole) = some ms := shape ▸ parseInt64_decimal ms
  have read := lexNumber_int signed value rest
  obtain ⟨d, digits, split⟩ := List.exists_cons_of_ne_nil signed.nonempty
  have digit : d.isDigit := signed.all d (by rw [split]; simp)
  rw [lexStep_symbol rfl, show ∀ rest, lexSymbol '@' rest = found (lexDateTime rest) from fun _ => rfl,
    shape]
  have notQuote : d ≠ '"' := ne_of_isDigit digit rfl
  rcases signed.sign with rfl | rfl
  · simp only [split, List.cons_append, List.nil_append] at read ⊢
    simp [lexDateTime, digit, read, bind, Except.bind, found]
  · simp only [split, List.cons_append, List.nil_append] at read ⊢
    unfold lexDateTime
    split
    · exact absurd (List.cons.inj ‹_›).1 notQuote
    · simp [digit, read, bind, Except.bind, found]

/-- A word is read as its token. -/
theorem reads_word (documented : Documented) {text : List Char} (word : WordText text) :
    Reads text (wordToken text) := by
  cases text with
  | nil => simp [WordText] at word
  | cons c more => exact ⟨c, more, rfl, fun _ => lexStep_word documented word⟩

theorem reads_hex (documented : Documented) {text : List Char} (hex : HexText text) :
    Reads text (.hex text) := by
  cases text with
  | nil => simp [HexText] at hex
  | cons c more => exact ⟨c, more, rfl, fun _ => lexStep_hex documented hex⟩

theorem reads_str (text : List Char) : Reads ('"' :: quoted text) (.str text) := by
  refine ⟨'"', quoted text, rfl, fun rest => ?_⟩
  rw [lexStep_symbol rfl, show ∀ rest, lexSymbol '"' rest =
    found ((fun read => (.str read.1, read.2)) <$> lexString rest) from fun _ => rfl, lexString_quoted]
  rfl

/-- A short word of ASCII letters and underscores. -/
def isPlainWord (text : List Char) : Bool :=
  text ≠ [] && text.length < 32 && text.all fun c => c.toNat < 128 && (c.isAlpha || c = '_')

theorem wordText_plain (documented : Documented) {text : List Char} (plain : isPlainWord text) :
    WordText text := by
  simp only [isPlainWord, Bool.and_eq_true, decide_eq_true_eq, List.all_eq_true] at plain
  obtain ⟨⟨nonempty, short⟩, letters⟩ := plain
  obtain ⟨c, more, rfl⟩ := List.exists_cons_of_ne_nil nonempty
  have starts : ∀ d ∈ c :: more, isWordStart d := by
    intro d member
    rw [documented.isWordStart_ascii (letters d member).1]
    exact (letters d member).2
  refine ⟨?_, fun d member => isWordChar_of_isWordStart (starts d member),
    fun hex => by have := hex.1; omega⟩
  rw [List.head?_cons, Option.any_some]
  exact starts c (by simp)

/-- The text of a token is read as the token. -/
theorem reads_text (documented : Documented) (numerals : Numerals) {tok : Tok}
    (lexable : tok.Lexable) : Reads (tok.text numerals) tok := by
  have keyword {text : List Char} (plain : isPlainWord text) : Reads text (wordToken text) :=
    reads_word documented (wordText_plain documented plain)
  cases tok with
  | hex text => exact reads_hex documented lexable
  | str text => exact reads_str text
  | int n => exact reads_int documented n
  | float f =>
      obtain ⟨text, numeral⟩ := lexable
      exact reads_numeral documented (numerals.numeral text f numeral)
  | dateTime ms => exact reads_dateTime ms
  | ident name =>
      obtain ⟨word, token⟩ := lexable
      have read := reads_word documented word
      rw [token] at read
      exact read
  | and => exact keyword (show isPlainWord "AND".toList from rfl)
  | or => exact keyword (show isPlainWord "OR".toList from rfl)
  | not => exact keyword (show isPlainWord "NOT".toList from rfl)
  | is => exact keyword (show isPlainWord "IS".toList from rfl)
  | present => exact keyword (show isPlainWord "PRESENT".toList from rfl)
  | absent => exact keyword (show isPlainWord "ABSENT".toList from rfl)
  | unknown => exact keyword (show isPlainWord "UNKNOWN".toList from rfl)
  | matching => exact keyword (show isPlainWord "MATCHES".toList from rfl)
  | true => exact keyword (show isPlainWord "true".toList from rfl)
  | false => exact keyword (show isPlainWord "false".toList from rfl)
  | _ => exact ⟨_, _, rfl, fun _ => rfl⟩

/-! ### What the lexer finds -/

omit [CharClasses] in
theorem lexFraction_eq_ok {whole rest left : List Char} {tok : Tok}
    (read : lexFraction whole rest = .ok (tok, left)) :
    (∃ n, tok = .int n ∧ left = rest) ∨
      ∃ f more, rest = '.' :: more ∧ tok = .float f ∧ left = more.dropWhile Char.isDigit ∧
        Externals.parseFloat (String.ofList (whole ++ '.' :: more.takeWhile Char.isDigit)) = some f := by
  unfold lexFraction at read
  split at read
  · next more =>
      dsimp only at read
      split at read
      · next f value =>
          cases read
          exact .inr ⟨f, more, rfl, rfl, rfl, value⟩
      · cases read
  · split at read
    · next n value =>
        cases read
        exact .inl ⟨n, rfl, rfl⟩
    · cases read

omit [Externals] [CharClasses] in
theorem length_dropWhile_cons_le {p : Char → Bool} {c : Char} (holds : p c) (rest : List Char) :
    ((c :: rest).dropWhile p).length ≤ rest.length := by
  rw [List.dropWhile_cons_of_pos holds]
  exact List.length_dropWhile_le p rest

omit [CharClasses] in
/-- Where a number starts: its sign and its digits. -/
theorem lexNumber_cons {c : Char} {rest : List Char}
    (starts : c.isDigit ∨ c = '-' ∧ rest.head?.any Char.isDigit) :
    ∃ sign whole after, Signed sign whole ∧ c :: rest = sign ++ (whole ++ after) ∧
      after.head?.any Char.isDigit = Bool.false ∧ after.length ≤ rest.length ∧
      lexNumber (c :: rest) = lexFraction (sign ++ whole) after := by
  have all (text : List Char) : ∀ d ∈ text.takeWhile Char.isDigit, d.isDigit :=
    fun d member => List.mem_takeWhile_imp member
  rcases starts with digit | ⟨rfl, digit⟩
  · have signed : Signed [] ((c :: rest).takeWhile Char.isDigit) :=
      ⟨.inr rfl, by simp [digit], all _⟩
    have ends := head?_dropWhile_any Char.isDigit (c :: rest)
    have whole : c :: rest =
        (c :: rest).takeWhile Char.isDigit ++ (c :: rest).dropWhile Char.isDigit :=
      List.takeWhile_append_dropWhile.symm
    refine ⟨[], _, _, signed, whole, ends, length_dropWhile_cons_le digit rest, ?_⟩
    have read := lexNumber_split signed ends
    rwa [List.nil_append, ← whole] at read
  · have nonempty : rest.takeWhile Char.isDigit ≠ [] := by
      cases rest with
      | nil => simp at digit
      | cons d more => simp_all
    have signed : Signed ['-'] (rest.takeWhile Char.isDigit) := ⟨.inl rfl, nonempty, all _⟩
    have ends := head?_dropWhile_any Char.isDigit rest
    have whole : rest = rest.takeWhile Char.isDigit ++ rest.dropWhile Char.isDigit :=
      List.takeWhile_append_dropWhile.symm
    refine ⟨['-'], _, _, signed, by rw [← whole]; rfl, ends, List.length_dropWhile_le _ _, ?_⟩
    have read := lexNumber_split signed ends
    rwa [← whole] at read

omit [CharClasses] in
/-- A number that is read leaves less than the text after its first character. -/
theorem lexNumber_length {c : Char} {rest left : List Char} {tok : Tok}
    (starts : c.isDigit ∨ c = '-' ∧ rest.head?.any Char.isDigit)
    (read : lexNumber (c :: rest) = .ok (tok, left)) : left.length ≤ rest.length := by
  obtain ⟨sign, whole, after, -, -, -, short, same⟩ := lexNumber_cons starts
  rw [same] at read
  rcases lexFraction_eq_ok read with ⟨n, -, rfl⟩ | ⟨f, more, rfl, -, rfl, -⟩
  · exact short
  · have shorter := List.length_dropWhile_le Char.isDigit more
    simp only [List.length_cons] at short
    omega

/-- A number the lexer comes to has a text: its whole part is not one the lexer takes for a uuid. -/
theorem lexNumber_lexable (documented : Documented) {c : Char} {rest left : List Char} {tok : Tok}
    (starts : c.isDigit ∨ c = '-' ∧ rest.head?.any Char.isDigit)
    (notUuid : c.isDigit → lexHexRun (c :: rest) = .ok none)
    (read : lexNumber (c :: rest) = .ok (tok, left)) : tok.Lexable := by
  obtain ⟨sign, whole, after, signed, shape, -, -, same⟩ := lexNumber_cons starts
  rw [same] at read
  rcases lexFraction_eq_ok read with ⟨n, rfl, -⟩ | ⟨f, more, rfl, rfl, -, value⟩
  · trivial
  · refine ⟨_, sign, whole, more.takeWhile Char.isDigit, rfl, ?_, signed.nonempty, signed.all,
      fun d member => List.mem_takeWhile_imp member, value⟩
    rcases signed.sign with dash | unsigned
    · exact .inl dash
    · refine .inr ⟨unsigned, fun full => ?_⟩
      rw [unsigned, List.nil_append] at shape
      have hexadecimal : ∀ d ∈ whole, isAsciiHexdigit d :=
        fun d member => isAsciiHexdigit_of_isDigit (signed.all d member)
      have ends : ('.' :: more).head?.any isAsciiHexdigit = Bool.false := rfl
      have notWord : isWordChar '.' = Bool.false := by
        rw [documented.isWordChar_ascii (by decide)]
        rfl
      have digit : c.isDigit := by
        obtain ⟨d, digits, split⟩ := List.exists_cons_of_ne_nil signed.nonempty
        rw [split] at shape
        exact (List.cons.inj shape).1 ▸ signed.all d (by simp [split])
      have run := notUuid digit
      simp only [lexHexRun, shape, takeWhile_run hexadecimal ends, dropWhile_run hexadecimal ends,
        List.head?_cons, Option.any_some, notWord, Bool.false_eq_true, if_false, full,
        if_true] at run
      cases run

/-- The token of a word has a text. -/
theorem wordToken_lexable {text : List Char} (word : WordText text) : (wordToken text).Lexable := by
  by_cases identifier : wordToken text = .ident text
  · rw [identifier]
    exact ⟨word, identifier⟩
  · have keyword : wordToken text ∈ [Tok.and, .or, .not, .is, .present, .absent, .unknown, .matching,
        .true, .false] := by
      revert identifier
      unfold wordToken
      split_ifs <;> simp
    simp only [List.mem_cons, List.not_mem_nil, or_false] at keyword
    rcases keyword with same | same | same | same | same | same | same | same | same | same <;>
      rw [same] <;> trivial

/-- A word the lexer comes to has a text: it is not one the lexer takes for a uuid. -/
theorem lexWord_lexable (documented : Documented) {c : Char} {rest : List Char}
    (starts : isWordStart c)
    (notUuid : isAsciiHexdigit c → lexHexRun (c :: rest) = .ok none) :
    (lexWord (c :: rest)).1.Lexable := by
  have first : isWordChar c := isWordChar_of_isWordStart starts
  refine wordToken_lexable ⟨by simp [first, starts], fun d member => List.mem_takeWhile_imp member, ?_⟩
  intro ⟨full, hexadecimal⟩
  have run := notUuid (hexadecimal c (by simp [first]))
  have ends := head?_dropWhile_any isWordChar (c :: rest)
  have notHex : ((c :: rest).dropWhile isWordChar).head?.any isAsciiHexdigit = Bool.false := by
    cases stop : ((c :: rest).dropWhile isWordChar).head? with
    | none => rfl
    | some d =>
        rw [stop] at ends
        by_contra hex
        have word := documented.isWordChar_hexdigit (c := d) (by simpa using hex)
        simp [word] at ends
  have taken := takeWhile_run hexadecimal notHex
  have left := dropWhile_run hexadecimal notHex
  rw [List.takeWhile_append_dropWhile] at taken left
  simp only [lexHexRun, taken, left, ends, Bool.false_eq_true, if_false, full, if_true] at run
  cases run

omit [Externals] [CharClasses] in
theorem lexString_length {text : List Char} {read : List Char × List Char}
    (ran : lexString text = .ok read) : read.2.length ≤ text.length := by
  fun_induction lexString text generalizing read with
  | case1 => cases ran
  | case2 rest => cases ran; simp
  | case3 => cases ran
  | case4 escaped rest out notQuote =>
      rename_i ih
      obtain ⟨inner, innerRan, rfl⟩ := Except.map_eq_ok.mp ran
      have shorter := ih innerRan
      simp only [List.length_cons]
      omega
  | case5 c rest notQuote notBackslash ih =>
      obtain ⟨inner, innerRan, rfl⟩ := Except.map_eq_ok.mp ran
      have shorter := ih innerRan
      simp only [List.length_cons]
      omega

theorem lexHexRun_eq_some {c : Char} {rest left : List Char} {tok : Tok} (hex : isAsciiHexdigit c)
    (run : lexHexRun (c :: rest) = .ok (some (tok, left))) :
    left.length ≤ rest.length ∧ tok.Lexable := by
  unfold lexHexRun at run
  dsimp only at run
  split at run
  · cases run
  · split at run
    · next full =>
        cases run
        exact ⟨length_dropWhile_cons_le hex rest, full, fun d member => List.mem_takeWhile_imp member⟩
    · split at run
      · cases run
      · split at run <;> cases run

/-- What one round finds has a text, and the round takes a character at least. -/
def Sound (rest : List Char) (read : Found) : Prop :=
  ∀ tok left, read = .ok (tok, left) → left.length ≤ rest.length ∧ ∀ t ∈ tok, t.Lexable

theorem sound_error (rest : List Char) (failure : String) : Sound rest (.error failure) :=
  fun _ _ read => nomatch read

theorem sound_ite {rest : List Char} {p : Prop} [Decidable p] {yes no : Found}
    (taken : p → Sound rest yes) (otherwise : ¬p → Sound rest no) :
    Sound rest (if p then yes else no) := by
  split
  · exact taken ‹_›
  · exact otherwise ‹_›

theorem sound_none {rest left : List Char} (short : left.length ≤ rest.length) :
    Sound rest (.ok (none, left)) := by
  intro tok after read
  cases read
  exact ⟨short, fun t member => nomatch member⟩

theorem sound_some {rest left : List Char} {tok : Tok} (short : left.length ≤ rest.length)
    (lexable : tok.Lexable) : Sound rest (.ok (some tok, left)) := by
  intro after more read
  cases read
  refine ⟨short, fun t member => ?_⟩
  cases member
  exact lexable

theorem sound_found {rest : List Char} {read : Except String (Tok × List Char)}
    (sound : ∀ tok left, read = .ok (tok, left) → left.length ≤ rest.length ∧ tok.Lexable) :
    Sound rest (found read) := by
  cases read with
  | error failure => exact sound_error rest failure
  | ok taken =>
      have holds := sound taken.1 taken.2 rfl
      exact sound_some holds.1 holds.2

theorem sound_equals (rest : List Char) : Sound rest (lexEquals rest) := by
  unfold lexEquals
  split
  · exact sound_some (by simp only [List.length_cons]; omega) trivial
  · exact sound_error _ _
  · exact sound_some le_rfl trivial

theorem sound_bang (rest : List Char) : Sound rest (lexBang rest) := by
  unfold lexBang
  split
  · exact sound_some (by simp) trivial
  · exact sound_error _ _

theorem sound_less (rest : List Char) : Sound rest (lexLess rest) := by
  unfold lexLess
  split
  · exact sound_some (by simp) trivial
  · exact sound_some le_rfl trivial

theorem sound_greater (rest : List Char) : Sound rest (lexGreater rest) := by
  unfold lexGreater
  split
  · exact sound_some (by simp) trivial
  · exact sound_some le_rfl trivial

theorem sound_dash (documented : Documented) (rest : List Char) : Sound rest (lexDash rest) := by
  unfold lexDash
  split
  · exact sound_some (by simp only [List.length_cons]; omega) trivial
  · exact sound_some (by simp) trivial
  · split
    · next digit =>
        refine sound_found fun tok left read => ?_
        have starts : Char.isDigit '-' ∨ '-' = '-' ∧ rest.head?.any Char.isDigit := .inr ⟨rfl, digit⟩
        exact ⟨lexNumber_length starts read,
          lexNumber_lexable documented starts (fun digit => absurd digit (by decide)) read⟩
    · exact sound_error _ _

theorem sound_dateTime (rest : List Char) : Sound rest (found (lexDateTime rest)) := by
  refine sound_found fun tok left read => ?_
  unfold lexDateTime at read
  split at read
  · next inside =>
      obtain ⟨⟨s, after⟩, stringRead, read⟩ := Except.bind_eq_ok.mp read
      have shorter : after.length ≤ inside.length := lexString_length stringRead
      dsimp only at read
      split at read
      · cases read
        exact ⟨by simp only [List.length_cons]; omega, trivial⟩
      · cases read
  · split at read
    · next digit =>
        obtain ⟨⟨number, after⟩, numberRead, finished⟩ := Except.bind_eq_ok.mp read
        cases rest with
        | nil => simp at digit
        | cons c more =>
            have starts : c.isDigit ∨ c = '-' ∧ more.head?.any Char.isDigit := by simpa using digit
            have shorter := lexNumber_length starts numberRead
            cases number with
            | int ms =>
                cases finished
                exact ⟨by simp only [List.length_cons]; omega, trivial⟩
            | _ => cases finished
    · cases read

theorem sound_symbol (documented : Documented) {c : Char} {rest : List Char}
    (notUuid : isAsciiHexdigit c → lexHexRun (c :: rest) = .ok none) :
    Sound rest (lexSymbol c rest) := by
  refine sound_ite (fun _ => sound_none le_rfl) fun _ => ?_
  refine sound_ite (fun _ => sound_some le_rfl trivial) fun _ => ?_
  refine sound_ite (fun _ => sound_some le_rfl trivial) fun _ => ?_
  refine sound_ite (fun _ => sound_some le_rfl trivial) fun _ => ?_
  refine sound_ite (fun _ => sound_some le_rfl trivial) fun _ => ?_
  refine sound_ite (fun _ => sound_equals rest) fun _ => ?_
  refine sound_ite (fun _ => sound_bang rest) fun _ => ?_
  refine sound_ite (fun _ => sound_less rest) fun _ => ?_
  refine sound_ite (fun _ => sound_greater rest) fun _ => ?_
  refine sound_ite (fun _ => sound_dash documented rest) fun _ => ?_
  refine sound_ite (fun _ => sound_found fun tok left read => ?_) fun _ => ?_
  · obtain ⟨inner, innerRead, same⟩ := Except.map_eq_ok.mp read
    cases same
    exact ⟨lexString_length innerRead, trivial⟩
  refine sound_ite (fun _ => sound_dateTime rest) fun _ => ?_
  refine sound_ite (fun digit => sound_found fun tok left read => ?_) fun _ => ?_
  · exact ⟨lexNumber_length (.inl digit) read, lexNumber_lexable documented (.inl digit)
      (fun _ => notUuid (isAsciiHexdigit_of_isDigit digit)) read⟩
  refine sound_ite (fun starts => sound_found fun tok left read => ?_) fun _ => sound_error _ _
  cases read
  exact ⟨length_dropWhile_cons_le (isWordChar_of_isWordStart starts) rest,
    lexWord_lexable documented starts notUuid⟩

/-- One round of the loop is sound. -/
theorem sound_step (documented : Documented) (c : Char) (rest : List Char) :
    Sound rest (lexStep c rest) := by
  intro tok left read
  obtain ⟨run, runs, read⟩ := Except.bind_eq_ok.mp read
  cases run with
  | some taken =>
      cases read
      by_cases hex : isAsciiHexdigit c
      · rw [if_pos hex] at runs
        have holds := lexHexRun_eq_some hex runs
        exact sound_some holds.1 holds.2 _ _ rfl
      · rw [if_neg hex] at runs
        cases runs
  | none =>
      refine sound_symbol documented (fun hex => ?_) tok left read
      rwa [if_pos hex] at runs

/-! ### The loop -/

theorem lexLoop_cons (rounds : Nat) (c : Char) (rest : List Char) :
    lexLoop (rounds + 1) (c :: rest) =
      lexStep c rest >>= fun read => (fun toks => read.1.toList ++ toks) <$> lexLoop rounds read.2 :=
  rfl

/-- A round takes a character at least, so as many rounds as there are characters are enough. -/
theorem lexLoop_rounds (documented : Documented) {few many : Nat} {input : List Char}
    (enough : input.length ≤ few) (more : few ≤ many) : lexLoop few input = lexLoop many input := by
  induction few generalizing many input with
  | zero =>
      obtain rfl : input = [] := by simpa using enough
      cases many <;> rfl
  | succ few ih =>
      obtain ⟨many, rfl⟩ : ∃ before, many = before + 1 := ⟨many - 1, by omega⟩
      cases input with
      | nil => rfl
      | cons c rest =>
          rw [lexLoop_cons, lexLoop_cons]
          cases read : lexStep c rest with
          | error failure => rfl
          | ok taken =>
              have shorter := (sound_step documented c rest taken.1 taken.2 read).1
              simp only [List.length_cons] at enough
              have same := @ih many taken.2 (by omega) (by omega)
              simp only [bind, Except.bind, same]

theorem lex_cons (documented : Documented) (c : Char) (rest : List Char) :
    lex (c :: rest) =
      lexStep c rest >>= fun read => (fun toks => read.1.toList ++ toks) <$> lex read.2 := by
  rw [lex, List.length_cons, lexLoop_cons]
  cases read : lexStep c rest with
  | error failure => rfl
  | ok taken =>
      have shorter := (sound_step documented c rest taken.1 taken.2 read).1
      have same : lexLoop taken.2.length taken.2 = lexLoop rest.length taken.2 :=
        lexLoop_rounds documented (Nat.le_refl taken.2.length) shorter
      simp only [bind, Except.bind, lex, same]

/-- Every token the lexer finds has a text. -/
theorem lex_lexable (documented : Documented) {input : List Char} {toks : List Tok}
    (read : lex input = .ok toks) : ∀ tok ∈ toks, tok.Lexable := by
  obtain ⟨size, long⟩ : ∃ size, input.length ≤ size := ⟨_, le_rfl⟩
  induction size generalizing input toks with
  | zero =>
      obtain rfl : input = [] := by simpa using long
      cases read
      simp
  | succ size ih =>
      cases input with
      | nil =>
          cases read
          simp
      | cons c rest =>
          rw [lex_cons documented] at read
          obtain ⟨taken, step, read⟩ := Except.bind_eq_ok.mp read
          obtain ⟨later, laterRead, rfl⟩ := Except.map_eq_ok.mp read
          have sound := sound_step documented c rest taken.1 taken.2 step
          have shorter := sound.1
          simp only [List.length_cons] at long
          intro tok member
          rcases List.mem_append.mp member with first | others
          · exact sound.2 tok (by simpa using first)
          · exact ih laterRead (by omega) tok others

/-- The lexer finds the tokens in the text that spells them. -/
theorem lex_spell (documented : Documented) (numerals : Numerals) {toks : List Tok}
    (lexable : ∀ tok ∈ toks, tok.Lexable) : lex (spell numerals toks) = .ok toks := by
  induction toks with
  | nil => rfl
  | cons tok toks ih =>
      obtain ⟨c, more, text, read⟩ := reads_text documented numerals (lexable tok (by simp))
      have later := ih fun other member => lexable other (by simp [member])
      have spelled : spell numerals (tok :: toks) = c :: (more ++ ' ' :: spell numerals toks) := by
        simp [spell, text]
      have space : lex (' ' :: spell numerals toks) = .ok toks := by
        rw [lex_cons documented, show lexStep ' ' (spell numerals toks) =
          .ok (none, spell numerals toks) from rfl]
        simp [bind, Except.bind, later, Functor.map, Except.map]
      rw [spelled, lex_cons documented, read]
      simp [bind, Except.bind, space, Functor.map, Except.map]

end Metafolder.Dsl
