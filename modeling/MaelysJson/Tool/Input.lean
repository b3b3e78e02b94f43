import MaelysJson.Code.Canon
import MaelysJson.Reading.Files

/-! The standard input of the tool: the beginning of it, up to the limit. -/
namespace MaelysJson

open Heap

section

variable {stream : InputStream} {heap : Heap} {capacity rounds : Nat} {bytes : Bytes}

/-- Every call of `fread` gives what it is asked for, up to the end, as the standard demands
of a stream. -/
def InputStream.Filling (stream : InputStream) : Prop := stream.pieces.length ≤ 1

theorem InputStream.Filling.fread (h : stream.Filling) (count : Nat) :
    (stream.fread count).1 = stream.contents.take count ∧
      (stream.fread count).2.contents = stream.contents.drop count ∧
      (stream.fread count).2.Filling := by
  obtain ⟨pieces, breaks, closes, eof, error⟩ := stream
  simp only [Filling] at h ⊢
  cases pieces with
  | nil => simp [InputStream.fread, contents]
  | cons piece pieces =>
      obtain rfl : pieces = [] := by
        rw [List.length_cons] at h
        exact List.eq_nil_of_length_eq_zero (by omega)
      by_cases hMore : piece.length > count
      · simp [InputStream.fread, contents, hMore]
      · simp [InputStream.fread, contents, hMore, List.drop_of_length_le (not_lt.mp hMore)]

theorem readStdinFrom_succ (hHeap : heap.Generous) (bytes : Bytes) :
    readStdinFrom (rounds + 1) heap capacity bytes stream =
      if (bytes ++ (stream.fread (capacity - bytes.length)).1).length < capacity ∨
      capacity ≥ inputLimit then
        (some (bytes ++ (stream.fread (capacity - bytes.length)).1), heap)
      else
        readStdinFrom rounds (heap.after [capacity * 2]) (capacity * 2)
          (bytes ++ (stream.fread (capacity - bytes.length)).1)
            (stream.fread (capacity - bytes.length)).2 := by
  simp only [readStdinFrom, request_eq, hHeap _, if_true]

/-- The loop ends with a buffer that is not full, or with the largest one. -/
theorem readStdinFrom_reads (hHeap : heap.Generous) (hFilling : stream.Filling)
    (hRoom : bytes.length ≤ capacity) (hCapacity : capacity * 2 ^ rounds = inputLimit) :
    ∃ asked, readStdinFrom (rounds + 1) heap capacity bytes stream =
      (some ((bytes ++ stream.contents).take inputLimit), heap.after asked) := by
  induction rounds generalizing heap capacity bytes stream with
  | zero =>
      rw [Nat.pow_zero, Nat.mul_one] at hCapacity
      refine ⟨[], ?_⟩
      rw [readStdinFrom_succ hHeap, if_pos (Or.inr hCapacity.ge), (hFilling.fread _).1, after_nil,
        ← hCapacity, List.take_append, List.take_of_length_le hRoom]
  | succ rounds ih =>
      obtain ⟨hRead, hRest, hNext⟩ := hFilling.fread (capacity - bytes.length)
      have hFilled : bytes ++ stream.contents.take (capacity - bytes.length) =
          (bytes ++ stream.contents).take capacity := by
        rw [List.take_append, List.take_of_length_le hRoom]
      rw [readStdinFrom_succ hHeap, hRead, hFilled]
      by_cases hShort : ((bytes ++ stream.contents).take capacity).length < capacity
      · -- the stream has ended
        have hLength : (bytes ++ stream.contents).length < capacity := by
          rw [List.length_take] at hShort
          omega
        have hLimit : capacity ≤ inputLimit := by
          rw [← hCapacity]
          exact Nat.le_mul_of_pos_right _ (Nat.two_pow_pos _)
        refine ⟨[], ?_⟩
        rw [if_pos (Or.inl hShort), after_nil, List.take_of_length_le hLength.le,
          List.take_of_length_le (hLength.le.trans hLimit)]
      · have hLess : ¬capacity ≥ inputLimit := by
          have hPos : 0 < capacity := by
            rcases Nat.eq_zero_or_pos capacity with rfl | hPos
            · simp [inputLimit] at hCapacity
            · exact hPos
          have hMore : capacity * 2 ≤ capacity * 2 ^ (rounds + 1) :=
            Nat.mul_le_mul_left _
              (by rw [Nat.pow_succ]; exact Nat.le_mul_of_pos_left _ (Nat.two_pow_pos _))
          omega
        rw [if_neg (not_or.mpr ⟨hShort, hLess⟩)]
        obtain ⟨asked, hRun⟩ := @ih _ _ _ _ (hHeap.after [capacity * 2]) hNext
          (show ((bytes ++ stream.contents).take capacity).length ≤
            capacity * 2 by rw [List.length_take]; omega)
          (by rw [← hCapacity, Nat.pow_succ]; ring)
        have hLeft : stream.contents.drop (capacity - bytes.length) =
            (bytes ++ stream.contents).drop capacity := by
          rw [List.drop_append, List.drop_of_length_le hRoom, List.nil_append]
        refine ⟨[capacity * 2] ++ asked, ?_⟩
        rw [hRun, after_after, hRest, hLeft, List.take_append_drop]

/-- With memory for it, the tool reads its input up to the limit. -/
theorem readStdin_reads (hHeap : heap.Generous) (hFilling : stream.Filling) :
    ∃ asked, readStdin heap stream =
      (some (stream.contents.take inputLimit), heap.after asked) := by
  obtain ⟨asked, hRun⟩ := @readStdinFrom_reads stream (heap.after [65536]) 65536 8 []
    (hHeap.after _) hFilling (Nat.zero_le _) (by decide)
  refine ⟨[65536] ++ asked, ?_⟩
  simp only [readStdin, request_eq, hHeap _, if_true, hRun, after_after, List.nil_append]

end

end MaelysJson
