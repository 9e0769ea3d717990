import Metafolder.ByteCode

/-!
# Reading a slice of bytes

A computation that reads bytes one part after another, from a position in a slice.  It may reject what
it reads, and it panics where the end of a part is past the greatest number a position can be.  What
a part yields is stated at any offset and with anything after it.
-/

namespace ByteReaders

/-- The longest a slice can be (`isize::MAX`). -/
def maxLength : Nat := 2 ^ 63 - 1

/-- A slice and a position in it. -/
structure Reader where
  bytes : Bytes
  pos : Nat

/-- What a computation comes to. -/
inductive Reading (α : Type)
  | panicked
  | rejected
  | read (value : α) (after : Reader)

/-- A computation that reads. -/
def Reads (α : Type) : Type := Reader → Reading α

/-- One computation after another. -/
def Reads.bind {α β : Type} (first : Reads α) (next : α → Reads β) : Reads β := fun reader =>
  match first reader with
  | .panicked => .panicked
  | .rejected => .rejected
  | .read value after => next value after

instance : Monad Reads where
  pure value reader := .read value reader
  bind := Reads.bind

/-- Nothing is read, and the computation goes on with the value if there is one. -/
def accept {α : Type} : Option α → Reads α
  | some value => pure value
  | none => fun _ => .rejected

/-- So many bytes. -/
def take (n : Nat) : Reads Bytes := fun reader =>
  if 2 ^ 64 ≤ reader.pos + n then .panicked
  else if reader.pos + n ≤ reader.bytes.length then
    .read ((reader.bytes.drop reader.pos).take n) { reader with pos := reader.pos + n }
  else .rejected

/-- The number some bytes denote, the least significant first. -/
def ofLittleEndian (bytes : Bytes) : Nat := ByteCode.ofBigEndian bytes.reverse

/-- The bytes of a number, the least significant first. -/
def littleEndian (width number : Nat) : Bytes := (ByteCode.bigEndian width number).reverse

/-- A number of some bytes. -/
def number (width : Nat) : Reads Nat := do pure (ofLittleEndian (← take width))

/-- A part read so many times. -/
def times {α : Type} (part : Reads α) : Nat → Reads (List α)
  | 0 => pure []
  | n + 1 => do
      let first ← part
      let others ← times part n
      pure (first :: others)

variable {α β : Type}

@[simp]
theorem length_littleEndian (width number : Nat) : (littleEndian width number).length = width := by
  rw [littleEndian, List.length_reverse, ByteCode.length_bigEndian]

theorem ofLittleEndian_littleEndian {width number : Nat} (fits : number < 256 ^ width) :
    ofLittleEndian (littleEndian width number) = number := by
  rw [ofLittleEndian, littleEndian, List.reverse_reverse, ByteCode.ofBigEndian_bigEndian,
    Nat.mod_eq_of_lt fits]

/-! ### No panic -/

/-- A position inside a slice. -/
structure Reader.Within (reader : Reader) : Prop where
  pos_le : reader.pos ≤ reader.bytes.length
  length_le : reader.bytes.length ≤ maxLength

/-- A computation that does not panic inside a slice, nor leave it. -/
def Safe (part : Reads α) : Prop :=
  ∀ reader : Reader, reader.Within → part reader ≠ .panicked ∧
    ∀ value after, part reader = .read value after → after.Within ∧ after.bytes = reader.bytes

theorem safe_pure (value : α) : Safe (pure value : Reads α) := by
  intro reader within
  refine ⟨nofun, fun other after read => ?_⟩
  obtain ⟨-, rfl⟩ := Reading.read.inj read
  exact ⟨within, rfl⟩

theorem safe_accept (value : Option α) : Safe (accept value) := by
  cases value with
  | none => exact fun reader within => ⟨nofun, nofun⟩
  | some value => exact safe_pure value

/-- A computation can read a value. -/
def Produces (part : Reads α) (value : α) : Prop :=
  ∃ reader after, part reader = .read value after

/-- What follows has to be safe only for what can be read. -/
theorem safe_bind_of {first : Reads α} {next : α → Reads β} (safe : Safe first)
    (others : ∀ value, Produces first value → Safe (next value)) : Safe (first >>= next) := by
  intro reader within
  obtain ⟨calm, stays⟩ := safe reader within
  change Reads.bind first next reader ≠ _ ∧ ∀ value after, Reads.bind first next reader = _ → _
  rw [Reads.bind]
  cases came : first reader with
  | panicked => exact absurd came calm
  | rejected => exact ⟨nofun, nofun⟩
  | read value after =>
      obtain ⟨inside, same⟩ := stays value after came
      obtain ⟨also, kept⟩ := others value ⟨reader, after, came⟩ after inside
      refine ⟨also, fun other last read => ?_⟩
      obtain ⟨ends, slice⟩ := kept other last read
      exact ⟨ends, slice.trans same⟩

theorem safe_bind {first : Reads α} {next : α → Reads β} (safe : Safe first)
    (others : ∀ value, Safe (next value)) : Safe (first >>= next) :=
  safe_bind_of safe fun value _ => others value

/-- Taking bytes, as many as a length can be, does not panic. -/
theorem safe_take {n : Nat} (small : n ≤ maxLength) : Safe (take n) := by
  intro reader within
  have bounds := within.pos_le
  have length := within.length_le
  have most : maxLength = 2 ^ 63 - 1 := rfl
  rw [take, if_neg (by omega)]
  split
  · next fits =>
    refine ⟨nofun, fun value after read => ?_⟩
    obtain ⟨-, rfl⟩ := Reading.read.inj read
    exact ⟨⟨fits, length⟩, rfl⟩
  · exact ⟨nofun, nofun⟩

theorem safe_number {width : Nat} (small : width ≤ maxLength) : Safe (number width) :=
  safe_bind (safe_take small) fun _ => safe_pure _

/-- A number of some bytes is no greater than these can hold. -/
theorem number_lt {width n : Nat} (read : Produces (number width) n) : n < 256 ^ width := by
  obtain ⟨reader, after, came⟩ := read
  change Reads.bind (take width) _ reader = _ at came
  rw [Reads.bind, take] at came
  by_cases past : 2 ^ 64 ≤ reader.pos + width
  · rw [if_pos past] at came
    cases came
  · rw [if_neg past] at came
    by_cases fits : reader.pos + width ≤ reader.bytes.length
    · rw [if_pos fits] at came
      obtain ⟨rfl, -⟩ := Reading.read.inj came
      have bound := ByteCode.ofBigEndian_lt ((reader.bytes.drop reader.pos).take width).reverse
      refine bound.trans_le (Nat.pow_le_pow_right (by decide) ?_)
      rw [List.length_reverse]
      exact List.length_take_le _ _
    · rw [if_neg fits] at came
      cases came

theorem safe_times {part : Reads α} (safe : Safe part) (n : Nat) : Safe (times part n) := by
  induction n with
  | zero => exact safe_pure []
  | succ n ih => exact safe_bind safe fun _ => safe_bind ih fun _ => safe_pure _

/-! ### What is read -/

/-- A computation reads a value off some bytes, wherever they stand in a slice. -/
def Yields (part : Reads α) (word : Bytes) (value : α) : Prop :=
  ∀ front rest : Bytes, (front ++ (word ++ rest)).length ≤ maxLength →
    part ⟨front ++ (word ++ rest), front.length⟩ =
      .read value ⟨front ++ (word ++ rest), front.length + word.length⟩

theorem yields_pure (value : α) : Yields (pure value) [] value := fun _ _ _ => rfl

theorem yields_accept {value : Option α} {found : α} (there : value = some found) :
    Yields (accept value) [] found := by
  subst there
  exact yields_pure found

theorem yields_bind {first : Reads α} {next : α → Reads β} {word more : Bytes} {value : α}
    {result : β} (one : Yields first word value) (two : Yields (next value) more result) :
    Yields (first >>= next) (word ++ more) result := by
  intro front rest short
  have split : front ++ (word ++ more ++ rest) = front ++ (word ++ (more ++ rest)) := by
    rw [List.append_assoc]
  have again : front ++ (word ++ (more ++ rest)) = (front ++ word) ++ (more ++ rest) := by
    rw [List.append_assoc]
  rw [split] at short ⊢
  have read := one front (more ++ rest) short
  have then_ := two (front ++ word) rest (again ▸ short)
  rw [← again, List.length_append] at then_
  change Reads.bind first next _ = _
  rw [Reads.bind, read]
  dsimp only
  rw [then_, List.length_append, Nat.add_assoc]

theorem yields_map {part : Reads α} {word : Bytes} {value : α} (change : α → β)
    (one : Yields part word value) :
    Yields (part >>= fun read => pure (change read)) word (change value) := by
  have mapped := @yields_bind α β part (fun read => pure (change read)) word [] value
    (change value) one (yields_pure (change value))
  rwa [List.append_nil] at mapped

theorem yields_take (word : Bytes) : Yields (take word.length) word word := by
  intro front rest short
  have most : maxLength = 2 ^ 63 - 1 := rfl
  rw [List.length_append, List.length_append] at short
  rw [take]
  dsimp only
  rw [if_neg (by omega), if_pos (by rw [List.length_append, List.length_append]; omega),
    List.drop_left, List.take_left]

theorem yields_number {width n : Nat} (fits : n < 256 ^ width) :
    Yields (number width) (littleEndian width n) n := by
  have read := yields_take (littleEndian width n)
  rw [length_littleEndian] at read
  have whole := yields_map ofLittleEndian read
  rw [ofLittleEndian_littleEndian fits] at whole
  exact whole

theorem yields_times {part : Reads α} {word : α → Bytes} {values : List α}
    (each : ∀ value ∈ values, Yields part (word value) value) :
    Yields (times part values.length) (values.flatMap word) values := by
  induction values with
  | nil => exact yields_pure []
  | cons first others ih =>
      have one := each first List.mem_cons_self
      have rest := ih fun value member => each value (List.mem_cons_of_mem _ member)
      exact yields_bind one (yields_map (first :: ·) rest)

end ByteReaders
