import MaelysJson.Pointer.Position
import MaelysJson.Reading.Paths
import MaelysJson.RoundTrip.Built
import MaelysJson.Serializing.Ascii
import MaelysJson.Tool.Canon
import MaelysJson.Tool.Messages

/-! What the tool prints on its error stream: nothing, or one line that is safe for a
terminal, whatever the input and wherever memory ends. -/
namespace MaelysJson

open Grammar Heap Utf8

/-- No control character below the space, and nothing above ASCII. -/
def Shown (bytes : Bytes) : Prop := ∀ byte ∈ bytes, 0x20 ≤ byte.toNat ∧ byte.toNat < 0x80

instance (bytes : Bytes) : Decidable (Shown bytes) :=
  inferInstanceAs (Decidable (∀ byte ∈ bytes, 0x20 ≤ byte.toNat ∧ byte.toNat < 0x80))

@[simp] theorem shown_nil : Shown [] := List.forall_mem_nil _

@[simp] theorem shown_append (left right : Bytes) :
    Shown (left ++ right) ↔ Shown left ∧ Shown right :=
  List.forall_mem_append

@[simp] theorem shown_cons (byte : UInt8) (bytes : Bytes) :
    Shown (byte :: bytes) ↔ (0x20 ≤ byte.toNat ∧ byte.toNat < 0x80) ∧ Shown bytes :=
  List.forall_mem_cons

theorem shown_flatMap {α : Type} {xs : List α} {f : α → Bytes} (h : ∀ x ∈ xs, Shown (f x)) :
    Shown (xs.flatMap f) := by
  intro byte hByte
  obtain ⟨x, hx, hMem⟩ := List.mem_flatMap.mp hByte
  exact h x hx byte hMem

theorem Printable.shown {bytes : Bytes} (h : Printable bytes) : Shown bytes := by
  intro byte hByte
  obtain ⟨hLow, hHigh⟩ := h byte hByte
  rw [UInt8.le_iff_toNat_le] at hLow hHigh
  exact ⟨hLow, Nat.lt_of_le_of_lt hHigh (by decide)⟩

/-! ### Literals in ASCII -/

theorem shown_hexDigit (value : Nat) :
    0x20 ≤ (hexDigit (value % 16)).toNat ∧ (hexDigit (value % 16)).toNat < 0x80 := by
  have hAll : ∀ digit : Fin 16, 0x20 ≤ (hexDigit digit).toNat ∧
    (hexDigit digit).toNat < 0x80 := by decide
  exact hAll ⟨value % 16, Nat.mod_lt _ (by decide)⟩

theorem shown_u16Escape (unit : Nat) : Shown (u16Escape unit) := by
  simp [u16Escape, shown_hexDigit]

theorem shown_canonicalEscape {byte : UInt8} (h : byte.toNat < 0x80) :
    Shown (canonicalEscape byte) := by
  have hEscapes : ∀ e ∈ simpleEscapes, 0x20 ≤ e.1.toNat ∧ e.1.toNat < 0x80 := by
    simp [simpleEscapes]
  rcases canonicalEscape_cases byte with ⟨escape, hMem, hEscape⟩ | ⟨hLow, -, -, hEscape⟩ | hEscape
  · simp [hEscape, hEscapes _ hMem]
  · simp [hEscape, hLow, h]
  · rw [hEscape]
    exact shown_u16Escape byte.toNat

theorem shown_escapePoint (point : Nat) : Shown (escapePoint point) := by
  rw [escapePoint]
  split_ifs with hAscii
  · apply shown_canonicalEscape
    rwa [toNat_ofNat_of_lt (hAscii.trans (by decide))]
  · exact shown_flatMap fun unit _ => shown_u16Escape unit

theorem shown_literal {layout : Layout} (h : layout.ascii = true) (text : Bytes) :
    Shown (layout.literal text) := by
  have hContent : Shown (layout.content text) := by
    rw [Layout.content, if_pos h]
    exact shown_flatMap fun point _ => shown_escapePoint point
  simp [Layout.literal, quoted, hContent]

/-! ### The pointer -/

/-- The layout of the printed pointer. -/
def printedLayout : Layout := flagsLayout asciiFlag

theorem outputOf_ascii_string (text : Bytes) :
    outputOf asciiFlag (Tree.string text : Tree Numeral).json = printedLayout.literal text := by
  have hTrailer : trailer asciiFlag = [] := by decide
  rw [outputOf, hTrailer, List.append_nil]
  rfl

/-- What stands in place of a pointer that could not be written. -/
def notPrintable : Bytes := ascii "(pointer not printable)"

theorem printEscaped_of_ok {heap h : Heap} {w w' w'' : Writer} {text bytes : Bytes}
    (hCreate : writerCreate heap .rfc8259 none asciiFlag = (.ok w, h))
    (hString : writerStringCstr (some text) w = .ok () w')
    (hFinish : writerFinish true w' = .ok bytes w'') : printEscaped heap text = bytes := by
  simp only [printEscaped, hCreate, Run.bind_of_ok hString, hFinish]
  rfl

theorem printEscaped_cases (heap : Heap) (text : Bytes) :
    printEscaped heap text = notPrintable ∨
      ∃ w h w' w'', writerCreate heap .rfc8259 none asciiFlag = (.ok w, h) ∧
      writerStringCstr (some text) w = .ok () w' ∧
      writerFinish true w' = .ok (printEscaped heap text) w'' := by
  cases hCreate : writerCreate heap .rfc8259 none asciiFlag with
  | mk created h =>
      cases created with
      | error result =>
          left
          simp only [printEscaped, hCreate]
          rfl
      | ok w =>
          cases hString : writerStringCstr (some text) w with
          | error result w' =>
              left
              simp only [printEscaped, hCreate, Run.bind_of_error hString]
              rfl
          | ok value w' =>
              cases hFinish : writerFinish true w' with
              | error result w'' =>
                  left
                  simp only [printEscaped, hCreate, Run.bind_of_ok hString, hFinish]
                  rfl
              | ok bytes w'' =>
                  right
                  rw [printEscaped_of_ok hCreate hString hFinish]
                  exact ⟨w, h, w', w'', rfl, hString, hFinish⟩

/-- Wherever memory ends, the text is printed as a literal in ASCII, or not at all. -/
theorem printEscaped_prints (heap : Heap) (text : Bytes) :
    printEscaped heap text = notPrintable ∨
      PlainText .rfc8259 (cString text) ∧
      printEscaped heap text = printedLayout.literal (cString text) := by
  rcases printEscaped_cases heap text with hNot | ⟨w, h, w', w'', hCreate, hString, hFinish⟩
  · exact Or.inl hNot
  · right
    have hCall : (WriterCall.stringCstr (some text)).call w = (⟨.ok, none⟩, w') := by
      rw [WriterCall.call, WriterCall.operation, WriterCall.silent, Run.bind_of_ok hString]
      rfl
    have hFinished : ((WriterCall.finish true).call w').1 =
        ⟨.ok, some (printEscaped heap text)⟩ := by
      rw [WriterCall.call, WriterCall.operation, Run.bind_of_ok hFinish]
      rfl
    have hAll : callAll [.stringCstr (some text)] w = ([⟨.ok, none⟩], w') := by
      rw [callAll, callAll, hCall]
    obtain ⟨t, limits, -, hBuilt, hAdmitted, -, hOutput, -⟩ :=
      @finish_built heap h .rfc8259 none asciiFlag w hCreate [.stringCstr (some text)]
        (List.forall_mem_singleton.mpr (by simp [WriterCall.Sourced, WriterCall.source]))
        (by rw [hAll]; exact List.forall_mem_singleton.mpr rfl) (by rw [hAll, hFinished])
    obtain rfl : t = .string (cString text) := hBuilt.unique rfl
    rw [hAll, hFinished] at hOutput
    exact ⟨(validText_iff _ _).mp hAdmitted.every.1,
      (Option.some.inj hOutput).trans (outputOf_ascii_string _)⟩

theorem shown_printEscaped (heap : Heap) (text : Bytes) :
    Shown (printEscaped heap text) ∧ printEscaped heap text ≠ [] := by
  rcases printEscaped_prints heap text with hNot | ⟨-, hLiteral⟩
  · rw [hNot]
    decide +kernel
  · rw [hLiteral]
    exact ⟨shown_literal (by decide) _, by simp [Layout.literal, quoted]⟩

/-- A run that succeeds, or whose check fails, is silent; one that fails otherwise leaves one
line. -/
def CanonRun.Reported (run : CanonRun) : Prop :=
  (run.status ≤ 1 ∧ run.stderr = []) ∨
    (2 ≤ run.status ∧ run.status ≤ 4 ∧ ∃ line, line ≠ [] ∧ Shown line ∧ run.stderr = line ++ [0x0a])

theorem reported_line {status : Nat} (stdout : Stream) {line : Bytes} (hLow : 2 ≤ status)
    (hHigh : status ≤ 4) (hLine : line ≠ []) (hShown : Shown line) :
    (⟨status, stdout, line ++ ascii "\n"⟩ : CanonRun).Reported := by
  have hFeed : ascii "\n" = [0x0a] := by decide +kernel
  exact .inr ⟨hLow, hHigh, line, hLine, hShown, by rw [hFeed]⟩

section

variable {heap : Heap} {options : CanonOptions} {stdin : InputStream} {stdout : Stream}
  {message pointer : Bytes}

/-- A caller that passed a place for the error finds one there. -/
theorem documentParse_records (heap : Heap) (input : CText) (profile : Profile)
    (requested : Option Limits) :
    ∃ error, (documentParse heap input profile requested true).error = some error := by
  rcases documentParse_starts input profile requested true with
    ⟨limits, bound, hLimits, hSize, hBound, hSame⟩ | ⟨result, text, size, -, hRefused⟩
  · rw [hSame]
    have hAsks := documentParse_asks hLimits hSize hBound true
    have hEnds {value : Result × Option Document × Option Error}
        (hValue : ∃ error, value.2.2 = some error)
        (hRun : (documentParse heap (.buffer input.bytes) profile requested true).outcome = value ∨
          (documentParse heap (.buffer input.bytes) profile requested true).outcome =
            refusedOutcome true input.bytes) :
        ∃ error, (documentParse heap (.buffer input.bytes) profile requested true).error =
          some error := by
      rcases hRun with hRun | hRun
      · obtain ⟨error, hError⟩ := hValue
        exact ⟨error, (congrArg (fun outcome => outcome.2.2) hRun).trans hError⟩
      · exact ⟨_, congrArg (fun outcome => outcome.2.2) hRun⟩
    cases hRead : (readingOf input.bytes profile limits).readText with
    | ok s =>
        rw [hRead] at hAsks
        obtain ⟨parsed, -, hAsks⟩ := hAsks
        exact hEnds ⟨_, rfl⟩ (hAsks.ends heap)
    | error fault =>
        rw [hRead] at hAsks
        exact hEnds ⟨_, rfl⟩ (hAsks.ends heap)
  · rw [hRefused]
    exact ⟨_, rfl⟩

/-- The message of the tool, in its array of 128 bytes. -/
theorem message_eq (error : Error) (hMessage : 128 ≤ message.length) :
    cString ((errorFormat (some error) (some message) 128).2.getD []) = errorText error := by
  obtain ⟨written, hWritten, hText, -⟩ := errorFormat_writes error (by decide) hMessage
  have hLength := length_errorText_le error
  rw [hWritten, Option.getD_some, hText, List.take_of_length_le (by omega)]

theorem resultString_ne_nil (r : Result) : resultString r ≠ [] := by
  cases r <;> decide +kernel

theorem errorText_ne_nil (error : Error) : errorText error ≠ [] := by
  have hStart : ascii "line " ≠ [] := by decide +kernel
  simp [errorText, hStart]

theorem canonRun_reports (hKnown : options.Known) (hMessage : 128 ≤ message.length) :
    (canonRun heap options stdin stdout message pointer).Reported := by
  rw [canonRun]
  cases hRead : readStdin heap stdin with
  | mk input heap' =>
      cases input with
      | none =>
          have hLine : ascii "out of memory\n" = ascii "out of memory" ++ ascii "\n" := by
            decide +kernel
          simp only [hLine]
          exact reported_line stdout le_rfl (by decide) (by decide +kernel) (by decide +kernel)
      | some input =>
          obtain ⟨error, hError⟩ :=
            documentParse_records heap' (.buffer input) options.profile (some canonLimits)
          simp only
          split
          · next document hResult hDocument =>
            obtain ⟨limits, t, _, hLimits, -, hRepresents⟩ := documentParse_represents hDocument
            split_ifs with hCheck hOk hNumber
            · obtain ⟨answer, hAnswer, -⟩ :=
                hRepresents.isCanonical_iff hKnown.profile (newline_flag options.flags)
              rw [hAnswer]
              refine .inl ⟨?_, rfl⟩
              cases answer <;> simp
            · exact .inl ⟨Nat.zero_le _, rfl⟩
            · exact reported_line _ (by decide) (by decide) (resultString_ne_nil _)
                (printable_resultString _).shown
            · exact reported_line _ le_rfl (by decide) (resultString_ne_nil _)
                (printable_resultString _).shown
          · have hAt : Shown (ascii " at ") := by decide +kernel
            rw [hError]
            simp only [message_eq error hMessage]
            refine reported_line _ le_rfl (by decide) ?_ ?_
            · simp [errorText_ne_nil]
            · simp [(printable_errorText error).shown, hAt, shown_printEscaped]

/-- With any memory, arguments and input, the tool is silent or prints one line without control
characters. -/
theorem canonMain_reports (heap : Heap) (arguments : List Bytes) (stdin : InputStream)
    (stdout : Stream) (pointer : Bytes) (hMessage : 128 ≤ message.length) :
    (canonMain heap arguments stdin stdout message pointer).Reported := by
  rw [canonMain]
  cases hArguments : parseArguments arguments ⟨.rfc8259, 0, false⟩ with
  | none =>
      obtain ⟨line, hLine⟩ : ∃ line, canonUsage = line ++ ascii "\n" ∧ line ≠ [] ∧ Shown line :=
        ⟨canonUsage.dropLast, by decide +kernel⟩
      simp only [hLine.1]
      exact reported_line stdout (by decide) le_rfl hLine.2.1 hLine.2.2
  | some options =>
      exact canonRun_reports (parseArguments_known ⟨by simp, by decide⟩ hArguments) hMessage

/-- One byte of input that is no value. -/
theorem canonMain_reports_byte :
    let run := canonMain ⟨fun _ => true, []⟩ [] ⟨[[0x1b]], false, true, false, false⟩
      ⟨100, true, [], []⟩ (List.replicate 128 0) (List.replicate 256 0)
    run.stderr = ascii "line 1, column 1 (offset 0): invalid JSON syntax at \"\"\n" ∧
    run.Reported := by
  intro run
  refine ⟨by decide +kernel, ?_⟩
  exact @canonMain_reports (List.replicate 128 0) ⟨fun _ => true, []⟩ []
    ⟨[[0x1b]], false, true, false, false⟩ ⟨100, true, [], []⟩ (List.replicate 256 0)
    List.length_replicate.ge

/-! ### The place and the path -/

theorem zero_notMem_escapeByte {byte : UInt8} (h : byte ≠ 0) : 0 ∉ escapeByte byte := by
  rw [escapeByte]
  split_ifs
  · decide
  · decide
  · simpa using h.symm

theorem zero_notMem_decimal (position : Nat) : 0 ∉ decimal position := by
  rw [decimal]
  split_ifs
  · decide
  · intro hMem
    obtain ⟨digit, hDigit, hByte⟩ := List.mem_map.mp hMem
    have hLt : digit < 10 := Nat.digits_lt_base (by decide) (List.mem_reverse.mp hDigit)
    have hValue := congrArg UInt8.toNat hByte
    rw [toNat_ofNat_of_lt (by omega)] at hValue
    exact absurd hValue (by simp)

/-- The pointer to a fault is a C string: no key on its path holds a NUL. -/
theorem Fault.Named.zero_notMem {profile : Profile} {fault : Fault} (h : fault.Named profile) :
    0 ∉ encodePath fault.path := by
  intro hMem
  obtain ⟨step, hStep, hByte⟩ := List.mem_flatMap.mp hMem
  cases step with
  | index position => exact absurd hByte (by simp [Step.token, zero_notMem_decimal])
  | key name =>
      obtain ⟨content, hContent⟩ := h name hStep
      rcases List.mem_cons.mp hByte with hSlash | hToken
      · exact absurd hSlash (by decide)
      obtain ⟨byte, hName, hEscaped⟩ := List.mem_flatMap.mp hToken
      refine zero_notMem_escapeByte ?_ hEscaped
      rintro rfl
      exact hContent.zero_notMem hName

end

end MaelysJson
