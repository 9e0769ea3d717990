import Metafolder.ByteCode

/-!
# Byte strings cut to a width

A byte string is escaped and terminated, or, where it is too long, cut and marked, with a hash after
the mark.  The order of byte strings is the order of their codes, but for two that are cut at one
front, and no code is the front of another.
-/

namespace ByteCode

/-- A byte as it stands in a code. -/
def escape (byte : UInt8) : Bytes := if byte = 0 then [0, 0xFF] else [byte]

/-- The code of a byte string, of which `room` bytes are kept. -/
def packed (hash : Bytes) : Nat → Bytes → Bytes
  | _, [] => [0, 0]
  | room, byte :: rest =>
      if room < (escape byte).length then [0, 1] ++ hash
      else escape byte ++ packed hash (room - (escape byte).length) rest

/-- What is kept of a byte string that is cut, with the mark. -/
def cutFront : Nat → Bytes → Option Bytes
  | _, [] => none
  | room, byte :: rest =>
      if room < (escape byte).length then some [0, 1]
      else (cutFront (room - (escape byte).length) rest).map (escape byte ++ ·)

/-- What a code that is cut starts with, up to and with the mark. -/
def markedFront : Bytes → Option Bytes
  | [] => none
  | [_] => none
  | first :: second :: rest =>
      if first = 0 then
        if second = 0 then none
        else if second = 1 then some [0, 1]
        else (markedFront rest).map ([first, second] ++ ·)
      else (markedFront (second :: rest)).map ([first] ++ ·)

variable {hash further : Bytes} {room : Nat}

theorem packed_cons_of_lt {byte : UInt8} {rest : Bytes} (full : room < (escape byte).length) :
    packed hash room (byte :: rest) = [0, 1] ++ hash := if_pos full

theorem packed_cons_of_le {byte : UInt8} {rest : Bytes} (fits : (escape byte).length ≤ room) :
    packed hash room (byte :: rest) =
      escape byte ++ packed hash (room - (escape byte).length) rest := if_neg (by omega)

theorem cutFront_cons_of_lt {byte : UInt8} {rest : Bytes} (full : room < (escape byte).length) :
    cutFront room (byte :: rest) = some [0, 1] := if_pos full

theorem cutFront_cons_of_le {byte : UInt8} {rest : Bytes} (fits : (escape byte).length ≤ room) :
    cutFront room (byte :: rest) =
      (cutFront (room - (escape byte).length) rest).map (escape byte ++ ·) := if_neg (by omega)

theorem escape_of_ne {byte : UInt8} (nonzero : byte ≠ 0) : escape byte = [byte] := if_neg nonzero

theorem terminated_cons (byte : UInt8) (rest : Bytes) :
    terminated (byte :: rest) = escape byte ++ terminated rest := by
  rw [terminated, escape]
  split
  · rfl
  · rfl

theorem two_le_length_terminated (word : Bytes) : 2 ≤ (terminated word).length := by
  induction word with
  | nil => exact le_rfl
  | cons byte word ih =>
      rw [terminated_cons, List.length_append]
      omega

theorem escape_length_pos (byte : UInt8) : 0 < (escape byte).length := by
  rw [escape]
  split
  · exact Nat.two_pos
  · exact Nat.one_pos

/-! ### The front of a code -/

theorem packed_ne_nil (hash : Bytes) (room : Nat) (word : Bytes) : packed hash room word ≠ [] := by
  cases word with
  | nil => exact List.cons_ne_nil 0 [0]
  | cons byte rest =>
      by_cases full : room < (escape byte).length
      · rw [packed_cons_of_lt full]
        exact List.cons_ne_nil 0 (1 :: hash)
      · rw [packed_cons_of_le (by omega), escape]
        split
        · exact List.cons_ne_nil _ _
        · exact List.cons_ne_nil _ _

/-- The front of a code is the front of its byte string. -/
theorem markedFront_packed (hash : Bytes) (room : Nat) (word rest : Bytes) :
    markedFront (packed hash room word ++ rest) = cutFront room word := by
  induction word generalizing room with
  | nil => rfl
  | cons byte word ih =>
      by_cases full : room < (escape byte).length
      · rw [packed_cons_of_lt full, cutFront_cons_of_lt full]
        rfl
      · rw [packed_cons_of_le (by omega), cutFront_cons_of_le (by omega), List.append_assoc]
        by_cases zero : byte = 0
        · subst zero
          have read := ih (room - (escape 0).length)
          rw [← read]
          rfl
        · have read := ih (room - (escape byte).length)
          rw [escape_of_ne zero] at read ⊢
          obtain ⟨second, tail, next⟩ := List.exists_cons_of_ne_nil
            (List.append_ne_nil_of_left_ne_nil
              (packed_ne_nil hash (room - [byte].length) word) rest)
          rw [next] at read
          rw [List.singleton_append, next, markedFront, if_neg zero, read]

/-- A byte string is cut where its code has no room. -/
theorem cutFront_eq_none_iff {word : Bytes} :
    cutFront room word = none ↔ (terminated word).length ≤ room + 2 := by
  induction word generalizing room with
  | nil => exact iff_of_true rfl (by simp [terminated])
  | cons byte word ih =>
      rw [terminated_cons, List.length_append]
      have ended := two_le_length_terminated word
      by_cases full : room < (escape byte).length
      · rw [cutFront_cons_of_lt full]
        exact iff_of_false (Option.some_ne_none _) (by omega)
      · rw [cutFront_cons_of_le (by omega), Option.map_eq_none_iff, ih]
        omega

/-- A byte string that has room is coded whole. -/
theorem packed_of_le {word : Bytes} (whole : (terminated word).length ≤ room + 2) :
    packed hash room word = terminated word := by
  induction word generalizing room with
  | nil => rfl
  | cons byte word ih =>
      rw [terminated_cons, List.length_append] at whole
      have ended := two_le_length_terminated word
      rw [packed_cons_of_le (by omega), ih (by omega), terminated_cons]

/-! ### The order of codes -/

theorem compare_cons_of_lt {first second : UInt8} (less : first < second) (rest tail : Bytes) :
    compare (first :: rest) (second :: tail) = .lt := by
  rw [List.compare_cons_cons, Std.compare_eq_lt.mpr less]
  rfl

theorem pos_of_ne {byte : UInt8} (nonzero : byte ≠ 0) : 0 < byte := by
  rw [UInt8.lt_iff_toNat_lt]
  exact Nat.pos_of_ne_zero fun same => nonzero (UInt8.toNat_inj.mp same)

/-- The byte string that ends first comes first. -/
theorem compare_nil_packed (byte : UInt8) (word rest tail : Bytes) :
    compare ([0, 0] ++ rest) (packed hash room (byte :: word) ++ tail) = .lt := by
  by_cases full : room < (escape byte).length
  · rw [packed_cons_of_lt full]
    rfl
  · rw [packed_cons_of_le (by omega)]
    by_cases zero : byte = 0
    · subst zero
      rfl
    · rw [escape_of_ne zero]
      exact compare_cons_of_lt (pos_of_ne zero) _ _

/-- Where the first bytes differ, they decide, unless there is room for neither. -/
theorem compare_packed_of_lt {first second : UInt8} (less : first < second)
    (word other rest tail : Bytes) : room = 0 ∨
      compare (packed hash room (first :: word) ++ rest)
        (packed further room (second :: other) ++ tail) = .lt := by
  have nonzero : second ≠ 0 := by
    rintro rfl
    exact absurd (UInt8.lt_iff_toNat_lt.mp less) (Nat.not_lt_zero _)
  rcases Nat.eq_zero_or_pos room with none | some
  · exact .inl none
  · right
    have fits : packed further room (second :: other) =
        second :: packed further (room - 1) other := by
      rw [packed_cons_of_le (by rw [escape_of_ne nonzero]; exact some), escape_of_ne nonzero]
      rfl
    rw [fits]
    by_cases zero : first = 0
    · subst zero
      by_cases full : room < (escape 0).length
      · rw [packed_cons_of_lt full]
        exact compare_cons_of_lt (pos_of_ne nonzero) _ _
      · rw [packed_cons_of_le (by omega)]
        exact compare_cons_of_lt (pos_of_ne nonzero) _ _
    · rw [packed_cons_of_le (by rw [escape_of_ne zero]; exact some), escape_of_ne zero]
      exact compare_cons_of_lt less _ _

/-- No byte is kept where there is no room. -/
theorem cutFront_zero (byte : UInt8) (word : Bytes) : cutFront 0 (byte :: word) = some [0, 1] :=
  cutFront_cons_of_lt (escape_length_pos byte)

/-- What two strings of bytes start with alike does not decide their order. -/
theorem compare_append_left (front rest tail : Bytes) :
    compare (front ++ rest) (front ++ tail) = compare rest tail := by
  induction front with
  | nil => rfl
  | cons byte front ih =>
      rw [List.cons_append, List.cons_append, List.compare_cons_cons, Std.compare_self, ih]
      rfl

/-- Codes are ordered as their byte strings, and then by what follows them, unless both byte strings
are cut at one front. -/
theorem compare_packed (word other rest tail : Bytes) :
    (∃ front, cutFront room word = some front ∧ cutFront room other = some front) ∨
      compare (packed hash room word ++ rest) (packed further room other ++ tail) =
        (compare word other).then (compare rest tail) := by
  induction word generalizing room other with
  | nil =>
      cases other with
      | nil => exact .inr (compare_append_left [0, 0] rest tail)
      | cons byte other => exact .inr (compare_nil_packed byte other rest tail)
  | cons first word ih =>
      cases other with
      | nil =>
          right
          rw [@Std.OrientedCmp.eq_swap _ compare]
          exact congrArg Ordering.swap (compare_nil_packed first word tail rest)
      | cons second other =>
          have empty (none : room = 0) : ∃ front, cutFront room (first :: word) = some front ∧
              cutFront room (second :: other) = some front := by
            subst none
            exact ⟨[0, 1], cutFront_zero first word, cutFront_zero second other⟩
          rw [List.compare_cons_cons]
          rcases Nat.lt_trichotomy first.toNat second.toNat with less | same | more
          · have less : first < second := UInt8.lt_iff_toNat_lt.mpr less
            rcases compare_packed_of_lt less word other rest tail with none | decided
            · exact .inl (empty none)
            · right
              rw [decided, Std.compare_eq_lt.mpr less]
              rfl
          · obtain rfl := UInt8.toNat_inj.mp same
            rw [Std.compare_self]
            by_cases full : room < (escape first).length
            · exact .inl ⟨[0, 1], cutFront_cons_of_lt full, cutFront_cons_of_lt full⟩
            · rw [packed_cons_of_le (by omega), packed_cons_of_le (by omega),
                cutFront_cons_of_le (by omega), cutFront_cons_of_le (by omega), List.append_assoc,
                List.append_assoc, compare_append_left]
              rcases @ih (room - (escape first).length) other with cut | decided
              · obtain ⟨front, one, two⟩ := cut
                left
                exact ⟨escape first ++ front, by rw [one]; rfl, by rw [two]; rfl⟩
              · exact .inr decided
          · have less : second < first := UInt8.lt_iff_toNat_lt.mpr more
            rcases compare_packed_of_lt less other word tail rest with none | decided
            · exact .inl (empty none)
            · right
              rw [@Std.OrientedCmp.eq_swap _ compare, decided,
                @Std.OrientedCmp.eq_swap UInt8 compare, Std.compare_eq_lt.mpr less]
              rfl

/-- Numbers are ordered as their bytes. -/
theorem compare_bigEndian {width first second : Nat} (first_lt : first < 256 ^ width)
    (second_lt : second < 256 ^ width) :
    compare (bigEndian width first) (bigEndian width second) = compare first second := by
  have less {one other : Nat} (one_lt : one < 256 ^ width) (other_lt : other < 256 ^ width)
      (less : one < other) : compare (bigEndian width one) (bigEndian width other) = .lt := by
    rw [compare_eq_lt_iff (by rw [length_bigEndian, length_bigEndian]), ofBigEndian_bigEndian,
      ofBigEndian_bigEndian, Nat.mod_eq_of_lt one_lt, Nat.mod_eq_of_lt other_lt]
    exact less
  rcases Nat.lt_trichotomy first second with below | rfl | above
  · rw [less first_lt second_lt below, Nat.compare_eq_lt.mpr below]
  · rw [Std.compare_self, Std.compare_self]
  · rw [@Std.OrientedCmp.eq_swap _ compare, less second_lt first_lt above,
      Nat.compare_eq_gt.mpr above]
    rfl

/-! ### Where a code ends -/

/-- A byte string that is cut is coded as its front and the hash. -/
theorem packed_of_cut {word front : Bytes} (cut : cutFront room word = some front) :
    packed hash room word = front ++ hash := by
  induction word generalizing room front with
  | nil => cases cut
  | cons byte word ih =>
      by_cases full : room < (escape byte).length
      · rw [cutFront_cons_of_lt full] at cut
        obtain rfl := Option.some.inj cut
        exact packed_cons_of_lt full
      · rw [cutFront_cons_of_le (by omega)] at cut
        obtain ⟨kept, here, rfl⟩ := Option.map_eq_some_iff.mp cut
        rw [packed_cons_of_le (by omega), ih here, List.append_assoc]

/-- Where two strings of bytes that start with codes are equal, the byte strings are, or they are
cut at one front and have one hash. -/
theorem packed_append_eq {word other rest tail : Bytes} (width : hash.length = further.length)
    (same : packed hash room word ++ rest = packed further room other ++ tail) :
    rest = tail ∧ (word = other ∧ cutFront room word = none ∨ hash = further ∧
      ∃ front, cutFront room word = some front ∧ cutFront room other = some front) := by
  have fronts : cutFront room word = cutFront room other := by
    rw [← markedFront_packed hash room word rest, same, markedFront_packed]
  cases cut : cutFront room word with
  | none =>
      rw [cut] at fronts
      rw [packed_of_le (cutFront_eq_none_iff.mp cut),
        packed_of_le (cutFront_eq_none_iff.mp fronts.symm)] at same
      obtain ⟨words, rests⟩ := terminated_append_inj same
      exact ⟨rests, .inl ⟨words, rfl⟩⟩
  | some front =>
      rw [cut] at fronts
      rw [packed_of_cut cut, packed_of_cut fronts.symm, List.append_assoc,
        List.append_assoc] at same
      obtain ⟨hashes, rests⟩ := fixed_append_inj width (List.append_cancel_left same)
      exact ⟨rests, .inr ⟨hashes, front, rfl, fronts.symm⟩⟩

end ByteCode
