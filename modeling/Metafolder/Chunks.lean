import Mathlib.Data.List.Infix

/-!
# Chunks that begin with their length

A list is cut into chunks whose length is read at their beginning.  The cut ends where what is left is
shorter than a header or than the length it names.
-/

namespace Chunks

variable {α : Type} (header : Nat) (size : List α → Nat)

/-- Whether a list begins with a whole chunk. -/
def Begins (input : List α) : Prop :=
  header ≤ input.length ∧ header ≤ size input ∧ size input ≤ input.length

instance (input : List α) : Decidable (Begins header size input) :=
  inferInstanceAs (Decidable (_ ∧ _ ∧ _))

/-- The chunks of a list, so many at most. -/
def cutWithin : Nat → List α → List (List α)
  | 0, _ => []
  | most + 1, input =>
      if Begins header size input then
        input.take (size input) :: cutWithin most (input.drop (size input))
      else []

/-- The chunks of a list. -/
def cut (input : List α) : List (List α) := cutWithin header size input.length input

/-- A length is read from the header, and the header is no empty one. -/
structure Measured : Prop where
  pos : 0 < header
  reads : ∀ {input : List α}, header ≤ input.length → ∀ more, size (input ++ more) = size input

variable {header size} {input chunk rest : List α}

theorem not_begins_of_length (measured : Measured header size) (empty : input.length = 0) :
    ¬Begins header size input := by
  intro begins
  have := measured.pos
  have := begins.1
  omega

theorem cutWithin_congr (measured : Measured header size) {most more : Nat}
    (enough : input.length ≤ most) (plenty : input.length ≤ more) :
    cutWithin header size most input = cutWithin header size more input := by
  induction most generalizing more input with
  | zero =>
      cases more with
      | zero => rfl
      | succ more => rw [cutWithin, cutWithin, if_neg (not_begins_of_length measured (by omega))]
  | succ most ih =>
      cases more with
      | zero => rw [cutWithin, cutWithin, if_neg (not_begins_of_length measured (by omega))]
      | succ more =>
          rw [cutWithin, cutWithin]
          split
          · next begins =>
            have := measured.pos
            have := begins.2.1
            rw [@ih _ more]
            · rw [List.length_drop]
              omega
            · rw [List.length_drop]
              omega
          · rfl

theorem cut_eq (measured : Measured header size) (input : List α) : cut header size input =
    if Begins header size input then
      input.take (size input) :: cut header size (input.drop (size input))
    else [] := by
  rw [cut, cutWithin_congr measured le_rfl (Nat.le_succ _), cutWithin]
  split
  · next begins =>
    rw [cut, cutWithin_congr measured _ le_rfl]
    rw [List.length_drop]
    omega
  · rfl

/-- A chunk of its own length is cut off. -/
theorem cut_append (measured : Measured header size) (whole : header ≤ chunk.length)
    (sized : size chunk = chunk.length) (rest : List α) :
    cut header size (chunk ++ rest) = chunk :: cut header size rest := by
  have same : size (chunk ++ rest) = chunk.length := (measured.reads whole rest).trans sized
  have begins : Begins header size (chunk ++ rest) := by
    rw [Begins, same, List.length_append]
    omega
  rw [cut_eq measured, if_pos begins, same, List.take_left, List.drop_left]

/-- What was put together is cut apart. -/
theorem cut_flatten (measured : Measured header size) {chunks : List (List α)}
    (sized : ∀ chunk ∈ chunks, header ≤ chunk.length ∧ size chunk = chunk.length) :
    cut header size chunks.flatten = chunks := by
  induction chunks with
  | nil => rfl
  | cons chunk rest ih =>
      obtain ⟨⟨whole, same⟩, others⟩ := List.forall_mem_cons.mp sized
      rw [List.flatten_cons, cut_append measured whole same, ih others]

/-- A list cut short gives the first of the chunks. -/
theorem cut_prefix (measured : Measured header size) {front whole : List α} (isPrefix : front <+: whole) :
    cut header size front <+: cut header size whole := by
  obtain ⟨more, rfl⟩ := isPrefix
  generalize counted : front.length = count
  induction count using Nat.strong_induction_on generalizing front with
  | h count ih =>
      rw [cut_eq measured front]
      split
      · next begins =>
        obtain ⟨long, sized, fits⟩ := begins
        have := measured.pos
        have same := measured.reads long more
        have again : Begins header size (front ++ more) := by
          rw [Begins, same, List.length_append]
          omega
        rw [cut_eq measured (front ++ more), if_pos again, same, List.take_append_of_le_length fits,
          List.drop_append_of_le_length fits]
        refine List.prefix_cons_inj _ |>.mpr (ih _ ?_ rfl)
        rw [List.length_drop]
        omega
      · exact List.nil_prefix

end Chunks
