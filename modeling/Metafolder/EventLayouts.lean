import Metafolder.EventBytes

/-!
# Parsing the kernel's layouts

The two loops of the parser cut the buffer into chunks that begin with their length: no read is outside
the buffer, a buffer cut short gives the first of the events, and events laid out as the kernel does are
read back.
-/

namespace Metafolder
namespace Watchd
namespace Wire

variable {order : ByteOrder} {buf front mid back input record : Bytes} {start stop pos : Nat}

/-! ### Slices -/

theorem slice_eq (ordered : start ≤ stop) (inside : stop ≤ buf.length) :
    slice buf start stop = some ((buf.take stop).drop start) := if_pos ⟨ordered, inside⟩

/-- A slice, between what is before it and what is after. -/
theorem slice_mid (front mid back : Bytes) (isStart : start = front.length)
    (isStop : stop = start + mid.length) : slice (front ++ (mid ++ back)) start stop = some mid := by
  subst isStop isStart
  rw [slice_eq (Nat.le_add_right _ _), ← List.append_assoc, List.take_append_of_le_length,
    List.take_of_length_le, List.drop_left]
  · rw [List.length_append]
  · rw [List.length_append]
  · simp only [List.length_append]
    omega

theorem slice_append (ordered : start ≤ stop) (inside : stop ≤ input.length) (more : Bytes) :
    slice (input ++ more) start stop = slice input start stop := by
  rw [slice_eq ordered inside, slice_eq ordered, List.take_append_of_le_length inside]
  rw [List.length_append]
  omega

/-- A slice of the part of a buffer from a place on. -/
theorem slice_window (inside : stop ≤ buf.length) {first last : Nat} (ordered : first ≤ last)
    (fits : pos + last ≤ stop) :
    slice ((buf.take stop).drop pos) first last = slice buf (pos + first) (pos + last) := by
  rw [slice_eq ordered, slice_eq (by omega) (by omega), List.take_drop, List.drop_drop,
    List.take_take, min_eq_left fits]
  rw [List.length_drop, List.length_take]
  omega

/-! ### Records -/

/-- The length in the head of a record. -/
def recordSize (order : ByteOrder) (record : Bytes) : Nat := (readNat order record 2 4).getD 0

theorem recordSize_measured (order : ByteOrder) : Chunks.Measured 4 (recordSize order) where
  pos := by omega
  reads long more := by rw [recordSize, readNat, slice_append (by omega) long, recordSize, readNat]

theorem readNat_eq (ordered : start ≤ stop) (inside : stop ≤ buf.length) :
    readNat order buf start stop = some (order.read ((buf.take stop).drop start)) := by
  rw [readNat, slice_eq ordered inside, Option.map_some]

theorem readInt_isSome (ordered : start ≤ stop) (inside : stop ≤ buf.length) :
    ∃ number, readInt order buf start stop = some number :=
  ⟨_, by rw [readInt, readNat_eq ordered inside, Option.map_some]⟩

/-- No record is read outside. -/
theorem parseFidRecord_isSome (order : ByteOrder) (record : Bytes) (infoType : UInt8) :
    ∃ held, parseFidRecord order record infoType = some held := by
  rw [parseFidRecord]
  split
  · exact ⟨none, rfl⟩
  · next long =>
    obtain ⟨first, readFirst⟩ : ∃ number, readInt order record 4 8 = some number :=
      readInt_isSome (by omega) (by omega)
    obtain ⟨second, readSecond⟩ : ∃ number, readInt order record 8 12 = some number :=
      readInt_isSome (by omega) (by omega)
    obtain ⟨handleType, readType⟩ : ∃ number, readInt order record 16 20 = some number :=
      readInt_isSome (by omega) (by omega)
    rw [readFirst, readSecond, readNat_eq (by omega) (by omega), readType]
    simp only [Option.bind_eq_bind, Option.bind_some]
    generalize order.read ((record.take 16).drop 12) = handleBytes
    split
    · exact ⟨none, rfl⟩
    · next inside =>
      rw [slice_eq (Nat.le_add_right _ _) (by omega)]
      split
      · rw [slice_eq (by omega) le_rfl]
        exact ⟨_, rfl⟩
      · exact ⟨_, rfl⟩

theorem noteRecord_isSome (order : ByteOrder) (raw : RawEvent) (record : Bytes) (infoType : UInt8) :
    ∃ noted, noteRecord order raw record infoType = some noted := by
  rw [noteRecord]
  split
  · obtain ⟨held, read⟩ := parseFidRecord_isSome order record infoType
    exact ⟨_, by rw [read, Option.map_some]⟩
  · exact ⟨raw, rfl⟩

/-- What a whole record adds to its event. -/
def noteOf (order : ByteOrder) (raw : RawEvent) (record : Bytes) : RawEvent :=
  (noteRecord order raw record (record.headD 0)).getD raw

/-- The records of an event are the chunks of what follows its metadata. -/
theorem parseRecords_eq (inside : stop ≤ buf.length) {fuel : Nat} (enough : stop - pos < fuel)
    (raw : RawEvent) : parseRecords order buf stop fuel pos raw =
      some ((Chunks.cut 4 (recordSize order) ((buf.take stop).drop pos)).foldl (noteOf order) raw) := by
  induction fuel generalizing pos raw with
  | zero => omega
  | succ fuel ih =>
      have counted : ((buf.take stop).drop pos).length = stop - pos := by
        rw [List.length_drop, List.length_take, min_eq_left inside]
      rw [parseRecords, Chunks.cut_eq (recordSize_measured order)]
      split
      · next fits =>
        have sized : readNat order buf (pos + 2) (pos + 4) =
            some (recordSize order ((buf.take stop).drop pos)) := by
          rw [recordSize, readNat, readNat, slice_window inside (by omega) fits,
            slice_eq (by omega) (by omega)]
          rfl
        have held : pos < buf.length := by omega
        have first : buf[pos]? = some buf[pos] := List.getElem?_eq_getElem held
        generalize windowed : (buf.take stop).drop pos = window at counted sized
        rw [first, sized]
        simp only [Option.bind_eq_bind, Option.bind_some]
        split
        · next bad =>
          rw [if_neg]
          · rfl
          · rintro ⟨-, long, short⟩
            omega
        · next good =>
          have cutHere : slice buf pos (pos + recordSize order window) =
              some (window.take (recordSize order window)) := by
            have sliced := @slice_window buf stop pos inside 0 (recordSize order window)
              (Nat.zero_le _) (by omega)
            rw [windowed, Nat.add_zero, slice_eq (Nat.zero_le _) (by omega), List.drop_zero] at sliced
            exact sliced.symm
          obtain ⟨noted, note⟩ := noteRecord_isSome order raw
            (window.take (recordSize order window)) buf[pos]
          have headed : (window.take (recordSize order window)).headD 0 = buf[pos] := by
            rw [List.headD_eq_head?_getD, List.head?_take, if_neg (by omega), List.head?_eq_getElem?,
              ← windowed, List.getElem?_drop, Nat.add_zero, List.getElem?_take, if_pos (by omega), first]
            rfl
          have goesOn : window.drop (recordSize order window) =
              (buf.take stop).drop (pos + recordSize order window) := by
            rw [← windowed, List.drop_drop]
          rw [cutHere, Option.bind_some, note, Option.bind_some, ih (by omega), if_pos, List.foldl_cons,
            noteOf, headed, note, Option.getD_some, goesOn]
          rw [Chunks.Begins]
          omega
      · next ends =>
        rw [if_neg]
        · rfl
        · rintro ⟨long, -, -⟩
          omega

/-! ### Events -/

/-- The length at the beginning of an event. -/
def eventSize (order : ByteOrder) (event : Bytes) : Nat := (readNat order event 0 4).getD 0

theorem eventSize_measured (order : ByteOrder) : Chunks.Measured metadataLen (eventSize order) where
  pos := by decide
  reads long more := by
    have long : 4 ≤ _ := le_trans (by decide) long
    rw [eventSize, readNat, slice_append (by omega) long, eventSize, readNat]

/-- The mask of an event. -/
def eventMask (order : ByteOrder) (event : Bytes) : UInt64 :=
  .ofNat ((readNat order event 8 16).getD 0)

/-- Whether an event is an overflow's marker. -/
def isMarker (order : ByteOrder) (event : Bytes) : Bool := eventMask order event &&& fanQOverflow ≠ 0

/-- What an event tells. -/
def rawOf (order : ByteOrder) (event : Bytes) : RawEvent :=
  (Chunks.cut 4 (recordSize order) (event.drop metadataLen)).foldl (noteOf order)
    { mask := eventMask order event, pid := (readInt order event 20 24).getD 0 }

/-- What some events tell, and whether one is a marker. -/
def toldBy (order : ByteOrder) (events : List Bytes) : List RawEvent × Bool :=
  ((events.filter fun event => !isMarker order event).map (rawOf order), events.any (isMarker order))

theorem slice_drop {first last : Nat} (ordered : first ≤ last) (fits : pos + last ≤ buf.length) :
    slice (buf.drop pos) first last = slice buf (pos + first) (pos + last) := by
  have sliced := slice_window le_rfl ordered fits
  rwa [List.take_length] at sliced

/-- What is read at the beginning of a list is read of a chunk of it. -/
theorem slice_take {length : Nat} (ordered : start ≤ stop) (fits : stop ≤ length)
    (inside : length ≤ input.length) : slice (input.take length) start stop = slice input start stop := by
  have sliced := @slice_window _ _ 0 inside _ _ ordered (by omega)
  rwa [List.drop_zero, Nat.zero_add, Nat.zero_add] at sliced

/-- The events of a buffer are its chunks. -/
theorem parseEvents_eq {fuel off : Nat} (enough : buf.length - off < fuel) (events : List RawEvent)
    (overflow : Bool) : parseEvents order buf fuel off events overflow =
      some (events ++ (toldBy order (Chunks.cut metadataLen (eventSize order) (buf.drop off))).1,
        overflow || (toldBy order (Chunks.cut metadataLen (eventSize order) (buf.drop off))).2) := by
  induction fuel generalizing off events overflow with
  | zero => omega
  | succ fuel ih =>
      have ended : some (events, overflow) =
          some (events ++ (toldBy order []).1, overflow || (toldBy order []).2) := by
        simp [toldBy]
      have counted : (buf.drop off).length = buf.length - off := List.length_drop
      rw [parseEvents, Chunks.cut_eq (eventSize_measured order), metadataLen]
      split
      · next fits =>
        have sized : readNat order buf off (off + 4) = some (eventSize order (buf.drop off)) := by
          have sliced := @slice_drop buf off 0 4 (by omega) (by omega)
          rw [Nat.add_zero] at sliced
          rw [eventSize, readNat, readNat, sliced, slice_eq (by omega) (by omega)]
          rfl
        generalize windowed : buf.drop off = window at counted sized
        rw [sized]
        simp only [Option.bind_eq_bind, Option.bind_some]
        split
        · next bad =>
          rw [if_neg]
          · exact ended
          · rintro ⟨-, long, short⟩
            omega
        · next good =>
          have begins : Chunks.Begins 24 (eventSize order) window := by
            rw [Chunks.Begins]
            omega
          rw [if_pos begins]
          generalize chunked : window.take (eventSize order window) = chunk
          have reads {first last : Nat} (ordered : first ≤ last) (short : last ≤ 24) :
              slice buf (off + first) (off + last) = slice chunk first last := by
            rw [← chunked, slice_take ordered (by omega) (by omega), ← windowed]
            exact (slice_drop ordered (by omega)).symm
          have long : 24 ≤ chunk.length := by
            rw [← chunked, List.length_take]
            omega
          have mask : readNat order buf (off + 8) (off + 16) = readNat order chunk 8 16 := by
            rw [readNat, readNat, reads (by omega) (by omega)]
          have pid : readInt order buf (off + 20) (off + 24) = readInt order chunk 20 24 := by
            rw [readInt, readInt, readNat, readNat, reads (by omega) (by omega)]
          have goesOn : window.drop (eventSize order window) =
              buf.drop (off + eventSize order window) := by
            rw [← windowed, List.drop_drop]
          have records : (buf.take (off + eventSize order window)).drop (off + 24) = chunk.drop 24 := by
            rw [← chunked, ← windowed, ← List.drop_drop, List.take_drop]
          obtain ⟨held, readPid⟩ : ∃ number, readInt order chunk 20 24 = some number :=
            readInt_isSome (by omega) long
          have masked : eventMask order chunk = .ofNat (order.read ((chunk.take 16).drop 8)) := by
            rw [eventMask, readNat_eq (by omega) (by omega)]
            rfl
          rw [mask, pid, readNat_eq (by omega) (by omega), readPid]
          simp only [Option.bind_some]
          rw [← masked]
          split
          · next marker =>
            have isMarked : isMarker order chunk = true := decide_eq_true marker
            rw [ih (by omega), goesOn]
            simp [toldBy, isMarked, metadataLen]
          · next other =>
            have isEvent : isMarker order chunk = false := decide_eq_false other
            have raw : rawOf order chunk =
                (Chunks.cut 4 (recordSize order) (chunk.drop 24)).foldl (noteOf order)
                  { mask := eventMask order chunk, pid := held } := by
              rw [rawOf, readPid]
              rfl
            rw [parseRecords_eq (by omega) (by omega), Option.bind_some, records, ← raw, ih (by omega),
              goesOn]
            simp [toldBy, isEvent, metadataLen]
      · next ends =>
        rw [if_neg]
        · exact ended
        · rintro ⟨long, -, -⟩
          omega

theorem parse_eq (order : ByteOrder) (buf : Bytes) : parse order buf =
    some (toldBy order (Chunks.cut metadataLen (eventSize order) buf)) := by
  rw [parse, parseEvents_eq (by omega), List.drop_zero, List.nil_append, Bool.false_or]

/-- A buffer cut short tells the first of the events. -/
theorem toldBy_prefix {front whole : List Bytes} (isPrefix : front <+: whole) :
    (toldBy order front).1 <+: (toldBy order whole).1 := (isPrefix.filter _).map _

/-! ### Layouts -/

theorem length_writeInt (order : ByteOrder) (number : Int32) : (writeInt order number).length = 4 :=
  order.length_write _ _

/-- A number written is read back. -/
theorem readNat_write {width number : Nat} (fits : number < 256 ^ width) (front back : Bytes)
    (isStart : start = front.length) (isStop : stop = start + width) :
    readNat order (front ++ (order.write width number ++ back)) start stop = some number := by
  rw [readNat, slice_mid front _ back isStart (by rw [isStop, ByteOrder.length_write]),
    Option.map_some, order.read_write fits]

theorem readNat_head {width number : Nat} (fits : number < 256 ^ width) (back : Bytes) :
    readNat order (order.write width number ++ back) 0 width = some number := by
  rw [← List.nil_append (order.write width number ++ back)]
  exact readNat_write fits [] back rfl (Nat.zero_add width).symm

theorem readInt_write (number : Int32) (front back : Bytes) (isStart : start = front.length)
    (isStop : stop = start + 4) :
    readInt order (front ++ (writeInt order number ++ back)) start stop = some number := by
  rw [readInt, writeInt, readNat_write _ front back isStart isStop, Option.map_some,
    UInt32.ofNat_toNat, Int32.toInt32_toUInt32]
  exact number.toUInt32.toNat_lt

/-- A handle laid out after a head is read back, with the name after it. -/
theorem parseFidRecord_layout {head : Bytes} (headed : head.length = 4) (handle : Handle)
    (short : handle.bytes.length < 2 ^ 32) (tail : Bytes) (infoType : UInt8) :
    parseFidRecord order (head ++ (Body.handleBytes order handle ++ tail)) infoType =
      some (some (handle, if infoType ∈ namedTypes then tail.takeWhile fun byte => byte ≠ 0 else [])) := by
  generalize laid : head ++ (Body.handleBytes order handle ++ tail) = record
  have parts : record = head ++ (writeInt order handle.fsid.1 ++ (writeInt order handle.fsid.2 ++
      (order.write 4 handle.bytes.length ++ (writeInt order handle.handleType ++
        (handle.bytes ++ tail))))) := by
    rw [← laid, Body.handleBytes]
    simp only [List.append_assoc]
  have counted : record.length = 20 + (handle.bytes.length + tail.length) := by
    rw [parts]
    simp only [List.length_append, length_writeInt, ByteOrder.length_write, headed]
    omega
  have first : readInt order record 4 8 = some handle.fsid.1 := by
    rw [parts]
    exact readInt_write _ head _ headed.symm rfl
  have second : readInt order record 8 12 = some handle.fsid.2 := by
    rw [parts, ← List.append_assoc]
    exact readInt_write _ _ _ (by simp [headed, length_writeInt]) rfl
  have length : readNat order record 12 16 = some handle.bytes.length := by
    rw [parts, ← List.append_assoc, ← List.append_assoc]
    exact readNat_write short _ _ (by simp [headed, length_writeInt]) rfl
  have kind : readInt order record 16 20 = some handle.handleType := by
    rw [parts, ← List.append_assoc, ← List.append_assoc, ← List.append_assoc]
    exact readInt_write _ _ _ (by simp [headed, length_writeInt]) rfl
  have bytes : slice record 20 (20 + handle.bytes.length) = some handle.bytes := by
    rw [parts, ← List.append_assoc, ← List.append_assoc, ← List.append_assoc, ← List.append_assoc]
    exact slice_mid _ _ _ (by simp [headed, length_writeInt]) rfl
  have rest : slice record (20 + handle.bytes.length) record.length = some tail := by
    have ended : record = (head ++ Body.handleBytes order handle) ++ (tail ++ []) := by
      rw [← laid, List.append_nil, List.append_assoc]
    have front : (head ++ Body.handleBytes order handle).length = 20 + handle.bytes.length := by
      simp only [Body.handleBytes, List.length_append, length_writeInt, ByteOrder.length_write, headed]
      omega
    rw [counted, ended]
    exact slice_mid _ _ _ front.symm (by omega)
  rw [parseFidRecord, if_neg (by omega), first, second, length, kind]
  simp only [Option.bind_eq_bind, Option.bind_some]
  rw [if_neg (by omega), bytes, rest]
  split
  · rfl
  · rfl

namespace Body

variable {body : Body}

theorem length_layout (order : ByteOrder) (body : Body) :
    (body.layout order).length = body.length order := by
  simp only [layout, length, List.length_append, List.length_cons, List.length_nil,
    ByteOrder.length_write, List.length_replicate]
  omega

theorem recordSize_layout (sound : body.Sound order) :
    recordSize order (body.layout order) = (body.layout order).length := by
  have read : readNat order (body.layout order) 2 4 = some (body.length order) := by
    rw [layout, List.append_assoc]
    exact readNat_write sound.2 _ _ rfl rfl
  rw [recordSize, read, length_layout]
  rfl

theorem takeWhile_name {name : Bytes} (clean : 0 ∉ name) (more : Bytes) :
    (name ++ [0] ++ more).takeWhile (fun byte => byte ≠ 0) = name := by
  have whole : ∀ byte ∈ name, (decide (byte ≠ 0)) = true := by
    intro byte member
    exact decide_eq_true fun same => clean (same ▸ member)
  rw [List.append_assoc, List.takeWhile_append_of_pos whole]
  simp

/-- A record laid out tells its event what it says. -/
theorem noteOf_layout (sound : body.Sound order) (raw : RawEvent) :
    noteOf order raw (body.layout order) = body.tell raw := by
  have headed : ([body.infoType, 0] ++ order.write 2 (body.length order)).length = 4 := by simp
  have short := sound.2
  have typed : (body.layout order).headD 0 = body.infoType := rfl
  rw [noteOf, typed, noteRecord, layout]
  generalize [body.infoType, 0] ++ order.write 2 (body.length order) = head at headed
  cases body with
  | object dir handle =>
      have fits : handle.bytes.length < 2 ^ 32 := by
        simp only [length, content, handleBytes, List.length_append] at short
        omega
      rw [content, parseFidRecord_layout headed handle fits]
      cases dir <;> rfl
  | entry which handle name =>
      have fits : handle.bytes.length < 2 ^ 32 := by
        simp only [length, content, handleBytes, List.length_append] at short
        omega
      rw [content, List.append_assoc, parseFidRecord_layout headed handle fits,
        takeWhile_name sound.1]
      cases which <;> rfl
  | other infoType payload =>
      rw [if_neg]
      · rfl
      · exact sound.1

end Body

namespace Queued

variable {queued : Queued order}

theorem length_recordBytes (queued : Queued order) : queued.recordBytes.length =
    (queued.records.map fun body => body.1.length order).sum := by
  rw [recordBytes, List.length_flatten, List.map_map]
  exact congrArg List.sum (List.map_congr_left fun body _ => body.1.length_layout order)

theorem length_encode (queued : Queued order) :
    queued.encode.length = metadataLen + queued.recordBytes.length := by
  simp only [encode, List.length_append, List.length_cons, List.length_nil, ByteOrder.length_write,
    length_writeInt, metadataLen]

theorem eventSize_encode (queued : Queued order) :
    eventSize order queued.encode = queued.encode.length := by
  have fits : metadataLen + queued.recordBytes.length < 256 ^ 4 := by
    rw [length_recordBytes]
    exact lt_of_lt_of_eq queued.fits (by simp)
  have read : readNat order queued.encode 0 4 = some (metadataLen + queued.recordBytes.length) := by
    rw [encode]
    simp only [List.append_assoc]
    exact readNat_head fits _
  rw [eventSize, read, length_encode, Option.getD_some]

theorem eventMask_encode (queued : Queued order) : eventMask order queued.encode = queued.mask := by
  have fits : queued.mask.toNat < 256 ^ 8 := lt_of_lt_of_eq queued.mask.toNat_lt (by simp)
  have read : readNat order queued.encode 8 16 = some queued.mask.toNat := by
    rw [encode, List.append_assoc, List.append_assoc, List.append_assoc]
    exact readNat_write fits _ _ (by simp) rfl
  rw [eventMask, read, Option.getD_some, UInt64.ofNat_toNat]

theorem readPid_encode (queued : Queued order) :
    readInt order queued.encode 20 24 = some queued.pid := by
  rw [encode, List.append_assoc]
  exact readInt_write _ _ _ (by simp [length_writeInt]) rfl

theorem drop_encode (queued : Queued order) :
    queued.encode.drop metadataLen = queued.recordBytes := by
  rw [encode]
  refine List.drop_left' ?_
  simp only [List.length_append, List.length_cons, List.length_nil, ByteOrder.length_write,
    length_writeInt, metadataLen]

theorem isMarker_encode (queued : Queued order) :
    Wire.isMarker order queued.encode = queued.isMarker := by
  rw [Wire.isMarker, eventMask_encode, isMarker]

/-- An event laid out tells what it is. -/
theorem rawOf_encode (queued : Queued order) : rawOf order queued.encode = queued.raw := by
  have cut : Chunks.cut 4 (recordSize order) queued.recordBytes =
      queued.records.map fun body => body.1.layout order := by
    refine Chunks.cut_flatten (recordSize_measured order) fun chunk member => ?_
    obtain ⟨body, -, rfl⟩ := List.mem_map.mp member
    refine ⟨?_, Body.recordSize_layout body.2⟩
    rw [Body.length_layout, Body.length]
    omega
  rw [rawOf, drop_encode, cut, eventMask_encode, readPid_encode, raw, List.foldl_map,
    Option.getD_some]
  exact List.foldl_ext _ _ _ fun raw body _ => Body.noteOf_layout body.2 raw

end Queued

/-- A buffer is never read outside and every loop ends; cut anywhere, it tells the first of the events;
and events laid out as the kernel does, markers of an overflow among them, are told as they are. -/
theorem parse_layouts (order : ByteOrder) :
    (∀ buf cut, ∃ whole first, parse order buf = some whole ∧
      parse order (buf.take cut) = some first ∧ first.1 <+: whole.1) ∧
    ∀ events : List (Queued order), parse order (events.flatMap Queued.encode) =
      some ((events.filter fun event => !event.isMarker).map Queued.raw,
        events.any Queued.isMarker) := by
  refine ⟨fun buf cut => ⟨_, _, parse_eq order buf, parse_eq order _, toldBy_prefix
    (Chunks.cut_prefix (eventSize_measured order) (List.take_prefix cut buf))⟩, fun events => ?_⟩
  have cut : Chunks.cut metadataLen (eventSize order) (events.flatMap Queued.encode) =
      events.map Queued.encode := by
    rw [List.flatMap_def]
    refine Chunks.cut_flatten (eventSize_measured order) fun chunk member => ?_
    obtain ⟨queued, -, rfl⟩ := List.mem_map.mp member
    refine ⟨?_, queued.eventSize_encode⟩
    rw [Queued.length_encode]
    omega
  rw [parse_eq, cut, toldBy, List.filter_map, List.map_map, List.any_map]
  have markers : isMarker order ∘ Queued.encode = Queued.isMarker :=
    funext Queued.isMarker_encode
  have raws : rawOf order ∘ Queued.encode = Queued.raw := funext Queued.rawOf_encode
  rw [markers, raws]
  congr 3
  exact List.filter_congr fun queued _ => congrArg Bool.not queued.isMarker_encode

end Wire
end Watchd
end Metafolder
