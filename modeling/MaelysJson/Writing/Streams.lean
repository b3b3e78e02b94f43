import MaelysJson.Code.Stdio
import MaelysJson.Writing.Sticky

/-! Finishing to a stream, in any state that calls reach: what the stream has received when
the call succeeds, and when a failure is recorded as the failure model promises. -/
namespace MaelysJson

open Run

/-- A call of the interface, the one with a stream included. -/
inductive StreamCall where
  | call (c : WriterCall)
  | finishFile (stream : Option Stream)

/-- The writer after a call, whatever it returned. -/
def StreamCall.after (w : Writer) : StreamCall → Writer
  | .call c => (c.call w).2
  | .finishFile stream => (writerFinishFile w stream).writer

/-- A finish of the writer would succeed and deliver these bytes. -/
structure Writer.Delivers (w : Writer) (bytes : Bytes) : Prop where
  ready : w.Ready
  complete : ¬w.Incomplete
  serialized : ∃ s, serialize w = .ok () s ∧ s.bytes = bytes

/-- The result is recorded, and nothing but refusals follow. -/
def Writer.Marked (w : Writer) (result : Result) : Prop :=
  writerStatus w = result ∧ ∀ (later : List StreamCall) (c : WriterCall),
    (c.call (later.foldl StreamCall.after w)).1.result = refusal (c.misused w.profile)

variable {w : Writer} {bytes : Bytes}

/-- To the writer, the finish to a stream is a finish. -/
theorem writerFinishFile_writer (w : Writer) (stream : Stream) :
    (writerFinishFile w (some stream)).writer = ((WriterCall.finish true).call w).2 := by
  rw [writerFinishFile, WriterCall.call, WriterCall.operation, bind_eq]
  cases writerFinish true w with
  | error result t => rfl
  | ok bytes t =>
      dsimp only
      split_ifs <;> rfl

/-- The stream after a finish has given it these bytes. -/
def Stream.given (stream : Stream) (bytes : Bytes) : Stream :=
  { stream with
    accepted := stream.accepted ++ bytes.take stream.room
    flushed :=
      if bytes.length ≤ stream.room ∧ stream.flushes = true then stream.accepted ++ bytes
      else stream.flushed }

/-- The stream sees what a finish delivers, and nothing where it delivers nothing. -/
theorem writerFinishFile_gives (w : Writer) (stream : Stream) :
    (∃ result, ((WriterCall.finish true).call w).1 = ⟨result, none⟩ ∧
      (writerFinishFile w (some stream)).result = result ∧
      (writerFinishFile w (some stream)).stream = some stream) ∨
    ∃ bytes, ((WriterCall.finish true).call w).1 = ⟨.ok, some bytes⟩ ∧
      (writerFinishFile w (some stream)).result =
        (if bytes.length ≤ stream.room ∧ stream.flushes = true then .ok else .errIo) ∧
      (writerFinishFile w (some stream)).stream = some (stream.given bytes) := by
  cases hRun : writerFinish true w with
  | error result u =>
      refine Or.inl ⟨result, ?_, by simp only [writerFinishFile, hRun],
        by simp only [writerFinishFile, hRun]⟩
      rw [WriterCall.call, WriterCall.operation, bind_of_error hRun]
  | ok bytes u =>
      refine Or.inr ⟨bytes, ?_, ?_⟩
      · rw [WriterCall.call, WriterCall.operation, bind_of_ok hRun]
        rfl
      · by_cases hRoom : bytes.length ≤ stream.room
        · have hTake : bytes.take stream.room = bytes := List.take_of_length_le hRoom
          cases hFlushes : stream.flushes <;>
            simp [writerFinishFile, hRun, Stream.fwrite, Stream.fflush, Stream.given, hRoom,
              hTake, hFlushes]
        · have hShort : ¬min stream.room bytes.length = bytes.length := by omega
          simp [writerFinishFile, hRun, Stream.fwrite, Stream.given, hRoom, hShort]

theorem StreamCall.after_sound (h : w.Sound) (c : StreamCall) : (c.after w).Sound := by
  cases c with
  | call c => exact c.call_sound h
  | finishFile stream =>
      cases stream with
      | none => exact h
      | some stream =>
          rw [StreamCall.after, writerFinishFile_writer]
          exact WriterCall.call_sound _ h

theorem StreamCall.after_not_ready (h : ¬w.Ready) (c : StreamCall) : c.after w = w := by
  cases c with
  | call c => exact c.call_same h
  | finishFile stream =>
      cases stream with
      | none => rfl
      | some stream => exact (writerFinishFile_writer w stream).trans (WriterCall.call_same h _)

theorem Writer.Delivers.finish (h : w.Delivers bytes) :
    ∃ heap, writerFinish true w = .ok bytes { w with heap, finished := true } := by
  obtain ⟨hReady, hComplete, s, hRun, rfl⟩ := h
  refine ⟨s.heap, ?_⟩
  rw [writerFinish_run hReady, if_neg hComplete, ← serialize_eq, hRun]

/-- Every finish of a ready writer delivers, or records what stopped it. -/
theorem writerFinish_delivers (h : w.Ready) :
    (∃ bytes, w.Delivers bytes) ∨ ∃ r t, writerFinish true w = .error r t ∧
      (r ≠ .ok → writerStatus t = r ∧ ¬t.Ready) := by
  have hRecorded (u : Writer) (hU : u.failure = .ok) (r : Result) (hr : r ≠ .ok) :
      writerStatus (u.fail r) = r ∧ ¬(u.fail r).Ready := by
    have hFailure : (u.fail r).failure = r := if_pos hU
    exact ⟨hFailure, fun hReady => hr (hFailure.symm.trans hReady.1)⟩
  by_cases hComplete : w.Incomplete
  · refine Or.inr ⟨.errState, w.fail .errState, ?_, hRecorded w h.1 _⟩
    rw [writerFinish_run h, if_pos hComplete]
  · cases hRun : serialize w with
    | ok u s => exact Or.inl ⟨s.bytes, h, hComplete, s, hRun, rfl⟩
    | error r s =>
        refine Or.inr ⟨r, Writer.fail { w with heap := s.heap } r, ?_,
          hRecorded { w with heap := s.heap } h.1 _⟩
        rw [writerFinish_run h, if_neg hComplete, ← serialize_eq, hRun]

theorem marked_of_not_ready {r : Result} (hStatus : writerStatus w = r) (hReady : ¬w.Ready) :
    w.Marked r := by
  refine ⟨hStatus, fun later c => ?_⟩
  have hSame : later.foldl StreamCall.after w = w := by
    induction later with
    | nil => rfl
    | cons d later ih => rw [List.foldl_cons, d.after_not_ready hReady, ih]
  rw [hSame, c.call_rejected fun _ => hReady]

/-- A stream that takes everything and flushes it. -/
theorem writerFinishFile_taken {stream : Stream} (h : w.Delivers bytes)
    (hRoom : bytes.length ≤ stream.room) (hFlushes : stream.flushes = true) :
    (writerFinishFile w (some stream)).result = .ok ∧ (writerFinishFile w (some stream)).stream =
      some { stream with
        accepted := stream.accepted ++ bytes, flushed := stream.accepted ++ bytes } := by
  obtain ⟨heap, hRun⟩ := h.finish
  simp only [writerFinishFile, hRun, Stream.fwrite, Stream.fflush, min_eq_right hRoom,
    List.take_of_length_le hRoom, hFlushes, ne_eq, not_true_eq_false, if_false, if_true,
    Bool.not_true, Bool.false_eq_true, and_self]

/-- A stream that does not: the writer has finished, and shows no failure. -/
theorem writerFinishFile_short {stream : Stream} (h : w.Delivers bytes)
    (hShort : ¬(bytes.length ≤ stream.room ∧ stream.flushes = true)) :
    (writerFinishFile w (some stream)).result = .errIo ∧
    writerStatus (writerFinishFile w (some stream)).writer = .ok := by
  obtain ⟨heap, hRun⟩ := h.finish
  have hStatus : writerStatus { w with heap, finished := true } = .ok := h.ready.1
  simp only [writerFinishFile, hRun, Stream.fwrite, Stream.fflush]
  by_cases hRoom : bytes.length ≤ stream.room
  · have hFlushes : stream.flushes = false := by
      rw [← Bool.not_eq_true]
      exact fun hFlushes => hShort ⟨hRoom, hFlushes⟩
    simp only [min_eq_right hRoom, hFlushes, ne_eq, not_true_eq_false, if_false, Bool.not_false,
      if_true, hStatus, and_self]
  · have hLess : ¬min stream.room bytes.length = bytes.length := by omega
    simp only [hLess, ne_eq, not_false_eq_true, if_true, hStatus, and_self]

/-- Success tells that the stream holds and has flushed a complete output. A failure is
recorded exactly where it is not the stream that fails a finished writer. -/
theorem writer_finishFile {heap h : Heap} {profile : Profile} {requested : Option Limits}
    {flags : UInt32} {w : Writer} (hCreate : writerCreate heap profile requested flags = (.ok w, h))
    (before : List StreamCall) (stream : Option Stream) :
    let s := before.foldl StreamCall.after w
    let returned := writerFinishFile s stream
    (returned.result = .ok → ∃ st bytes, stream = some st ∧ ¬s.Incomplete ∧
      ((WriterCall.finish true).call s).1 = ⟨.ok, some bytes⟩ ∧
      returned.stream =
        some { st with accepted := st.accepted ++ bytes, flushed := st.accepted ++ bytes }) ∧
    ((s.Ready → returned.result ≠ .ok → returned.result ≠ .errArgument →
      returned.writer.Marked returned.result) ↔
      ∀ st bytes, stream = some st → s.Delivers bytes → bytes.length ≤ st.room ∧
        st.flushes = true) := by
  intro s returned
  have hSound : s.Sound := by
    have hRun (calls : List StreamCall) {u : Writer} (h : u.Sound) :
        (calls.foldl StreamCall.after u).Sound := by
      induction calls generalizing u with
      | nil => exact h
      | cons c calls ih => exact ih (c.after_sound h)
    exact hRun before fun _ => writerCreate_steady hCreate
  cases stream with
  | none =>
      exact ⟨fun h => (by cases h), fun _ _ _ h => (by cases h), fun _ _ _ hArgument =>
        absurd rfl hArgument⟩
  | some st =>
      by_cases hReady : s.Ready
      · rcases writerFinish_delivers hReady with ⟨bytes, hDelivers⟩ | ⟨r, t, hRun, hRecorded⟩
        · obtain ⟨heap, hRun⟩ := hDelivers.finish
          have hSame {bytes' : Bytes} (h' : s.Delivers bytes') : bytes' = bytes := by
            obtain ⟨heap', hRun'⟩ := h'.finish
            rw [hRun, EStateM.Result.ok.injEq] at hRun'
            exact hRun'.1.symm
          have hCall : ((WriterCall.finish true).call s).1 = ⟨.ok, some bytes⟩ := by
            rw [WriterCall.call, WriterCall.operation, bind_of_ok hRun]
            rfl
          by_cases hTaken : bytes.length ≤ st.room ∧ st.flushes = true
          · obtain ⟨hOk, hStream⟩ := writerFinishFile_taken hDelivers hTaken.1 hTaken.2
            refine ⟨fun _ => ⟨st, bytes, rfl, hDelivers.complete, hCall, hStream⟩, ?_,
              fun _ _ hNot => absurd hOk hNot⟩
            rintro - _ bytes' ⟨⟩ hDelivers'
            rwa [hSame hDelivers']
          · obtain ⟨hIo, hStatus⟩ := writerFinishFile_short hDelivers hTaken
            have hResult : returned.result = .errIo := hIo
            refine ⟨fun hOk => absurd (hResult.symm.trans hOk) (by simp), fun hMarked => ?_,
              fun hAll => ?_⟩
            · have hMark := hMarked hReady (by rw [hResult]; simp) (by rw [hResult]; simp)
              rw [hResult] at hMark
              exact absurd (hStatus.symm.trans hMark.1) (by simp)
            · exact absurd (hAll st bytes rfl hDelivers) hTaken
        · have hReturned : returned = ⟨r, t, some st⟩ := by
            simp only [returned, writerFinishFile, hRun]
          rw [hReturned]
          have hNone (bytes : Bytes) : ¬s.Delivers bytes := by
            intro hDelivers
            obtain ⟨heap, hRun'⟩ := hDelivers.finish
            rw [hRun] at hRun'
            cases hRun'
          refine ⟨fun hOk => ?_, fun _ _ bytes _ hDelivers => absurd hDelivers (hNone bytes),
            fun _ _ hOk _ => ?_⟩
          · obtain ⟨_, hHeeds⟩ := WriterCall.operation_heeds (.finish true) (hSound hReady)
            have hOperation : WriterCall.operation (.finish true) s = .error r t :=
              bind_of_error hRun
            rw [hOperation] at hHeeds
            exact absurd hOk hHeeds.1.failed
          · exact marked_of_not_ready (hRecorded hOk).1 (hRecorded hOk).2
      · have hReturned : returned = ⟨.errState, s, some st⟩ := by
          have hRun : writerFinish true s = .error .errState s :=
            bind_of_error (writerReady_of_not_ready hReady)
          simp only [returned, writerFinishFile, hRun]
        rw [hReturned]
        exact ⟨(by simp), fun _ _ _ _ hDelivers => absurd hDelivers.ready hReady,
          fun _ h => absurd h hReady⟩

/-- A stream with room for `null`: it holds the bytes of the finish. -/
theorem writer_finishFile_null :
    let s := [StreamCall.call .null].foldl StreamCall.after
      (.fresh .rfc8259 ⟨65535, 32, 8192⟩ 0 ⟨fun _ => true, [144, 256, 256]⟩)
    ∃ bytes, ((WriterCall.finish true).call s).1 = ⟨.ok, some bytes⟩ ∧
      (writerFinishFile s (some ⟨4, true, [], []⟩)).stream = some ⟨4, true, bytes, bytes⟩ := by
  obtain ⟨st, bytes, hStream, -, hFinish, hLeft⟩ :=
    (@writer_finishFile ⟨fun _ => true, []⟩ ⟨fun _ => true, [144, 256, 256]⟩ .rfc8259 none 0
      (.fresh .rfc8259 ⟨65535, 32, 8192⟩ 0 ⟨fun _ => true, [144, 256, 256]⟩) (by rfl) [.call .null]
      (some ⟨4, true, [], []⟩)).1 (by decide +kernel)
  cases hStream
  exact ⟨bytes, hFinish, hLeft⟩

/-- A stream without room: the call fails, and the writer shows no failure. -/
theorem writerFinishFile_unrecorded :
    let s := [StreamCall.call .null].foldl StreamCall.after
      (.fresh .rfc8259 ⟨65535, 32, 8192⟩ 0 ⟨fun _ => true, [144, 256, 256]⟩)
    let returned := writerFinishFile s (some ⟨0, true, [], []⟩)
    returned.result = .errIo ∧ writerStatus returned.writer = .ok ∧
      ¬(s.Ready → returned.result ≠ .ok → returned.result ≠ .errArgument →
        returned.writer.Marked returned.result) := by
  intro s returned
  have hResult : returned.result = .errIo := by decide +kernel
  have hStatus : writerStatus returned.writer = .ok := by decide +kernel
  refine ⟨hResult, hStatus, fun hMarked => ?_⟩
  have hMark := hMarked (by decide +kernel) (by rw [hResult]; nofun) (by rw [hResult]; nofun)
  exact absurd (hStatus.symm.trans (hMark.1.trans hResult)) nofun

end MaelysJson
