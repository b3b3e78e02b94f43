import MaelysJson.Code.Pointer
import MaelysJson.Json.Tree
import MaelysJson.Memory.Requests

/-! JSON Pointers as RFC 6901 writes them, and the emitter: it counts all the bytes it
is given and keeps those that fit before the NUL. -/
namespace MaelysJson

/-! ### The encoding of a path -/

/-- `escaped = "~" ( "0" / "1" )` -/
def escapeByte (byte : UInt8) : Bytes :=
  if byte = 0x7e then [0x7e, 0x30] else if byte = 0x2f then [0x7e, 0x31] else [byte]

/-- `array-index = %x30 / ( %x31-39 *(%x30-39) )` -/
def decimal (position : Nat) : Bytes :=
  if position = 0 then [0x30] else (Nat.digits 10 position).reverse.map fun digit =>
    .ofNat (0x30 + digit)

def Step.token : Step → Bytes
  | .key name => name.flatMap escapeByte
  | .index position => decimal position

/-- `json-pointer = *( "/" reference-token )` -/
def encodePath (path : List Step) : Bytes := path.flatMap fun step => 0x2f :: step.token

/-! ### Tokens -/

theorem emitEscaped_eq (emitter : Emitter) (byte : UInt8) :
    emitEscaped emitter byte = (escapeByte byte).foldl emitByte emitter := by
  rw [emitEscaped, escapeByte]
  split_ifs <;> rfl

theorem emitToken_eq (emitter : Emitter) (name : Bytes) :
    emitToken emitter name = (0x2f :: (Step.key name).token).foldl emitByte emitter := by
  rw [emitToken, Step.token, List.foldl_cons, List.foldl_flatMap]
  congr 1
  funext emitter byte
  exact emitEscaped_eq emitter byte

theorem indexDigits_eq {rounds index : Nat} (h : index < rounds) :
    indexDigits rounds index =
      (if index = 0 then [0x30] else (Nat.digits 10 index).map fun digit =>
        .ofNat (0x30 + digit)) := by
  induction rounds generalizing index with
  | zero => omega
  | succ rounds ih =>
      rw [indexDigits]
      by_cases hZero : index = 0
      · rw [hZero]
        rfl
      · rw [if_neg hZero, Nat.digits_def' (by decide) (Nat.pos_of_ne_zero hZero), List.map_cons]
        by_cases hLast : index / 10 = 0
        · rw [if_pos hLast, hLast, Nat.digits_zero, List.map_nil]
        · rw [if_neg hLast, ih (by omega), if_neg hLast]

theorem emitIndex_eq (emitter : Emitter) (index : Nat) :
    emitIndex emitter index = (0x2f :: (Step.index index).token).foldl emitByte emitter := by
  rw [emitIndex, indexDigits_eq (Nat.lt_succ_self index), Step.token, decimal, List.foldl_cons]
  split_ifs
  · rfl
  · rw [List.map_reverse]

/-! ### Frames -/

/-- The text of the current key, or its raw bytes when they do not decode. -/
def Frame.keyText (bytes : Bytes) (frame : Frame) : Bytes :=
  let raw := (bytes.drop frame.keyStart).take (frame.keyEnd - frame.keyStart)
  match decodeString raw .rfc8259 with
  | .ok decoded => decoded
  | .error _ => raw

/-- The step that leads into the current item of a container, if there is one. -/
def Frame.step (bytes : Bytes) (frame : Frame) : Option Step :=
  if frame.isObject then
    if frame.hasKey && frame.inValue then some (.key (frame.keyText bytes)) else none
  else some (.index frame.index)

/-- The steps of the frames, as far as every one has an item. -/
def framesPath (bytes : Bytes) : List Frame → List Step
  | [] => []
  | frame :: frames =>
      match frame.step bytes with
      | none => []
      | some step => step :: framesPath bytes frames

theorem emitKey_eq {heap : Heap} (hHeap : heap.Generous) (emitter : Emitter) (bytes : Bytes)
    (frame : Frame) :
    (emitKey heap emitter bytes frame).1 =
        (0x2f :: (Step.key (frame.keyText bytes)).token).foldl emitByte emitter ∧
      (emitKey heap emitter bytes frame).2.Generous := by
  simp only [emitKey, Heap.request_eq, hHeap _, if_true]
  exact ⟨emitToken_eq emitter (frame.keyText bytes), hHeap.after _⟩

theorem emitFrames_eq {heap : Heap} (hHeap : heap.Generous) (bytes : Bytes) (frames : List Frame)
    (emitter : Emitter) :
    (emitFrames bytes frames emitter heap).1 =
      (encodePath (framesPath bytes frames)).foldl emitByte emitter := by
  induction frames generalizing emitter heap with
  | nil => rfl
  | cons frame frames ih =>
      have hNext (step : Step) (emitter' : Emitter) (heap' : Heap) (hHeap' : heap'.Generous)
          (hStep : frame.step bytes = some step)
          (hEmitter : emitter' = (0x2f :: step.token).foldl emitByte emitter) :
          (emitFrames bytes frames emitter' heap').1 =
            (encodePath (framesPath bytes (frame :: frames))).foldl emitByte emitter := by
        rw [ih hHeap', hEmitter, ← List.foldl_append]
        simp only [framesPath, hStep, encodePath, List.flatMap_cons]
      rw [emitFrames]
      by_cases hObject : frame.isObject = true
      · rw [if_pos hObject]
        by_cases hValue : (frame.hasKey && frame.inValue) = true
        · have hOpen : ¬(!frame.hasKey || !frame.inValue) = true := by
            rw [← Bool.not_and, hValue]
            decide
          rw [if_neg hOpen]
          obtain ⟨hKey, hAfter⟩ := emitKey_eq hHeap emitter bytes frame
          exact hNext (.key (frame.keyText bytes)) _ _ hAfter
            (by rw [Frame.step, if_pos hObject, if_pos hValue]) hKey
        · have hOpen : (!frame.hasKey || !frame.inValue) = true := by
            rw [← Bool.not_and, Bool.eq_false_of_not_eq_true hValue]
            rfl
          have hStep : frame.step bytes = none := by rw [Frame.step, if_pos hObject, if_neg hValue]
          rw [if_pos hOpen]
          simp only [framesPath, hStep]
          rfl
      · rw [if_neg hObject]
        exact hNext (.index frame.index) _ _ hHeap (by rw [Frame.step, if_neg hObject])
          (emitIndex_eq emitter frame.index)

/-! ### The buffer -/

/-- The emitter after `out`: in the memory stand the bytes that leave room for a NUL. -/
def Emitter.written (buffer : Option Bytes) (capacity : Nat) (out : Bytes) : Emitter :=
  { buffer := buffer.map fun memory =>
      out.take (capacity - 1) ++ memory.drop (min out.length (capacity - 1))
    capacity
    length := out.length }

theorem emitByte_room {emitter : Emitter} (h : emitter.length + 1 < emitter.capacity)
    (byte : UInt8) :
    emitByte emitter byte =
      ⟨emitter.buffer.map fun buffer => buffer.set emitter.length byte, emitter.capacity,
        emitter.length + 1⟩ := by
  rw [emitByte, if_pos h]

theorem emitByte_full {emitter : Emitter} (h : ¬emitter.length + 1 < emitter.capacity)
    (byte : UInt8) :
    emitByte emitter byte = ⟨emitter.buffer, emitter.capacity, emitter.length + 1⟩ := by
  rw [emitByte, if_neg h]

theorem emitByte_written {buffer : Option Bytes} {capacity : Nat}
    (hBuffer : ∀ memory, buffer = some memory → capacity ≤ memory.length) (out : Bytes)
    (byte : UInt8) :
    emitByte (.written buffer capacity out) byte = .written buffer capacity (out ++ [byte]) := by
  have hLength : (out ++ [byte]).length = out.length + 1 := List.length_append
  by_cases hRoom : out.length + 1 < capacity
  · rw [emitByte_room hRoom, Emitter.written, Emitter.written, hLength, Nat.min_eq_left (by omega),
      Nat.min_eq_left (by omega), List.take_of_length_le (by omega),
      List.take_of_length_le (by omega)]
    congr 1
    cases buffer with
    | none => rfl
    | some memory =>
        have hMemory := hBuffer memory rfl
        have hDrop := @List.drop_eq_getElem_cons _ out.length memory (by omega)
        simp only [Option.map_some]
        rw [hDrop, List.set_append_right _ _ le_rfl, Nat.sub_self, List.set_cons_zero,
          List.append_assoc]
        rfl
  · rw [emitByte_full hRoom, Emitter.written, Emitter.written, hLength, Nat.min_eq_right (by omega),
      Nat.min_eq_right (by omega), List.take_append_of_le_length (by omega)]

theorem emitBytes_written {buffer : Option Bytes} {capacity : Nat}
    (hBuffer : ∀ memory, buffer = some memory → capacity ≤ memory.length) (more out : Bytes) :
    more.foldl emitByte (.written buffer capacity out) =
      .written buffer capacity (out ++ more) := by
  induction more generalizing out with
  | nil => rw [List.append_nil, List.foldl_nil]
  | cons byte more ih =>
      rw [List.foldl_cons, emitByte_written hBuffer, ih, List.append_assoc, List.singleton_append]

theorem init_written (buffer : Option Bytes) (capacity : Nat) :
    Emitter.init buffer capacity = .written buffer (if buffer.isSome then capacity else 0) [] := by
  simp only [Emitter.init, Emitter.written, List.take_nil, List.nil_append, List.length_nil,
    Nat.zero_min, List.drop_zero, Option.map_id']

/-- What the caller finds after `out`: its first bytes as far as they fit, a NUL, and
behind it what was there. -/
theorem emitFinish_written {memory : Bytes} {capacity : Nat} (hMemory : capacity ≤ memory.length)
    (hPos : 1 ≤ capacity) (out : Bytes) :
    (emitFinish (.written (some memory) capacity out)).buffer =
      some (out.take (min out.length (capacity - 1)) ++
        0 :: memory.drop (min out.length (capacity - 1) + 1)) := by
  have hStop : (if out.length < capacity then out.length else capacity - 1) =
      min out.length (capacity - 1) := by
    split_ifs <;> omega
  have hTake : out.take (capacity - 1) = out.take (min out.length (capacity - 1)) := by
    rw [Nat.min_comm, ← List.take_take, List.take_length]
  have hLength : (out.take (min out.length (capacity - 1))).length =
      min out.length (capacity - 1) := by
    rw [List.length_take]
    omega
  have hDrop := @List.drop_eq_getElem_cons _ (min out.length (capacity - 1)) memory (by omega)
  rw [emitFinish, if_pos
    (show (Emitter.written (some memory) capacity out).capacity ≠ 0 from Nat.ne_of_gt hPos)]
  show some (((out.take (capacity - 1) ++ memory.drop (min out.length (capacity - 1))).set
    (if out.length < capacity then out.length else capacity - 1) 0)) = _
  rw [hStop, hTake, List.set_append_right _ _ hLength.le, hLength, Nat.sub_self, hDrop,
    List.set_cons_zero]

end MaelysJson
