import MaelysJson.Reading.Files
import MaelysJson.Reading.Prefixes
import MaelysJson.RoundTrip.Output
import MaelysJson.Writing.Streams

/-! A value written to a file and parsed from it, also where the writing or the reading goes
wrong on the way: a file shows what was written, or it is refused. -/
namespace MaelysJson

open Grammar Heap Run

/-! ### What a finish leaves in the stream -/

/-- A stream takes nothing, or a first part of what the finish delivers. -/
theorem writerFinishFile_accepted {w : Writer} {stream left : Stream}
    (h : (writerFinishFile w (some stream)).stream = some left) :
    left.accepted = stream.accepted ∨
      ∃ bytes, ((WriterCall.finish true).call w).1 = ⟨.ok, some bytes⟩ ∧
      ∃ taken, taken <+: bytes ∧ left.accepted = stream.accepted ++ taken := by
  rcases writerFinishFile_gives w stream with ⟨result, -, -, hStream⟩ | ⟨bytes, hCall, -, hStream⟩
  · obtain rfl := Option.some.inj (hStream.symm.trans h)
    exact Or.inl rfl
  · obtain rfl := Option.some.inj (hStream.symm.trans h)
    exact Or.inr ⟨bytes, hCall, bytes.take stream.room, List.take_prefix _ _, rfl⟩

/-- A finish that succeeds has passed everything on. -/
theorem writerFinishFile_ok {w : Writer} {stream : Stream}
    (h : (writerFinishFile w (some stream)).result = .ok) :
    ((WriterCall.finish true).call w).1.result = .ok ∧
      ∀ bytes, ((WriterCall.finish true).call w).1.output = some bytes →
        (writerFinishFile w (some stream)).stream =
          some { stream with
            accepted := stream.accepted ++ bytes, flushed := stream.accepted ++ bytes } := by
  rcases writerFinishFile_gives w stream with
    ⟨result, hCall, hResult, -⟩ | ⟨bytes, hCall, hResult, hStream⟩
  · rw [hCall]
    exact ⟨hResult.symm.trans h, by rintro _ ⟨⟩⟩
  · rw [hCall]
    refine ⟨rfl, ?_⟩
    rintro _ ⟨⟩
    rw [hResult] at h
    split_ifs at h with hTaken
    rw [hStream, Stream.given, if_pos hTaken, List.take_of_length_le hTaken.1]

/-! ### What a file shows -/

section

variable {fopen : Bytes → Option InputStream} {path : Bytes} {stream : InputStream}
  {heap heap' h : Heap} {profile : Profile} {requested requested' : Option Limits}
  {errorGiven : Bool} {document : Document} {flags : UInt32}
  {w : Writer} {calls : List WriterCall} {st left : Stream}

theorem documentParseFile_parsed (hFile : fopen path = some stream) (hOpen : stream.Open)
    (hParse : (documentParseFile fopen heap (some path) profile requested errorGiven).document =
      some document) :
    ∃ heap', (documentParse heap' (.buffer stream.contents) profile requested errorGiven).document =
      some document := by
  cases hLimits : limitsResolve requested with
  | error result =>
      simp only [documentParseFile, hLimits] at hParse
      cases hParse
  | ok limits =>
      by_cases hGranted : heap.Grants [limits.maximumBytes + 1]
      · by_cases hFits : stream.contents.length ≤ limits.maximumBytes
        · rw [documentParseFile_fits hFile hOpen hLimits hGranted hFits] at hParse
          simp only at hParse
          split_ifs at hParse
          · cases hParse
          · exact ⟨_, hParse⟩
        · rw [documentParseFile_exceeds hFile hOpen hLimits hGranted (not_le.mp hFits)] at hParse
          cases hParse
      · rw [documentParseFile_refused hFile hLimits hGranted] at hParse
        cases hParse

theorem not_text_nil {t : Json} : ¬Text profile [] t := by
  rintro ⟨before, body, after, -, hBody, -, hNil⟩
  obtain ⟨byte, tail, rfl, -⟩ := Reading.value_head hBody
  simp at hNil

/-- After calls that succeed, whatever part of the output reached the file: if the file is
accepted, it shows the value that was built. Only of a number the end may be missing. -/
theorem writerFinishFile_torn (hCreate : writerCreate heap profile requested flags = (.ok w, h))
    (hSourced : ∀ c ∈ calls, c.Sourced)
    (hOk : ∀ returned ∈ (callAll calls w).1, returned.result = .ok) (hEmpty : st.accepted = [])
    (hLeft : (writerFinishFile (callAll calls w).2 (some st)).stream = some left)
    (hFile : fopen path = some stream) (hOpen : stream.Open)
    (hContents : stream.contents <+: left.accepted)
    (hParse : (documentParseFile fopen heap' (some path) profile requested' errorGiven).document =
      some document) :
    ∃ t, Built calls t ∧ (documentTree document = .ok t.json.sorted ∨
      ∃ lexeme rest, rest ≠ [] ∧ t.json.sorted = .number (lexeme ++ rest) ∧
        documentTree document = .ok (.number lexeme)) := by
  obtain ⟨heap'', hParsed⟩ := documentParseFile_parsed hFile hOpen hParse
  obtain ⟨t', hText, hTree⟩ := documentParse_shows hParsed
  rcases writerFinishFile_accepted hLeft with hSame | ⟨bytes, hFinish, taken, hTaken, hAccepted⟩
  · -- the empty file is refused
    rw [hSame, hEmpty, List.prefix_nil] at hContents
    rw [CText.bytes, hContents] at hText
    exact absurd hText not_text_nil
  · obtain ⟨t, limits, -, hBuilt, hAdmitted, hProfile, hOutput, -⟩ :=
      finish_built hCreate hSourced hOk (by rw [hFinish])
    rw [hFinish] at hOutput
    obtain rfl := Option.some.inj hOutput
    rw [hAccepted, hEmpty, List.nil_append] at hContents
    obtain ⟨more, hMore⟩ := hContents.trans hTaken
    have hWhole : Text profile (stream.contents ++ more) t.json.sorted := by
      rw [hMore]
      exact text_outputOf hProfile hAdmitted
    refine ⟨t, hBuilt, ?_⟩
    rw [hTree]
    rcases hText.cut hWhole with ⟨hSorted, -⟩ | ⟨lexeme, rest, rfl, hNumber, hRest⟩
    · left
      rw [← hSorted, Tree.lastWins_of_uniqueKeys ((uniqueKeys_json_sorted t).mpr hAdmitted.unique)]
    · exact Or.inr ⟨lexeme, rest, hRest, hNumber, rfl⟩

/-- The number 12345, written to a stream that takes three bytes of it: the file shows 123. -/
theorem writerFinishFile_torn_number :
    let w := Writer.fresh .rfc8259 ⟨65535, 32, 8192⟩ 0 ⟨fun _ => true, [144, 256, 256]⟩
    let calls : List WriterCall := [.u64 12345]
    let file : InputStream := ⟨[[0x31], [0x32, 0x33]], false, true, false, false⟩
    let parsed := documentParseFile (fun _ => some file) ⟨fun _ => true, []⟩ (some [0x61])
      .rfc8259 none true
    (writerFinishFile (callAll calls w).2 (some ⟨3, true, [], []⟩)).result = .errIo ∧
      ∃ document t, parsed.document = some document ∧ Built calls t ∧
        ∃ lexeme rest, rest ≠ [] ∧ t.json.sorted = .number (lexeme ++ rest) ∧
          documentTree document = .ok (.number lexeme) ∧ lexeme = [0x31, 0x32, 0x33] ∧
            rest = [0x34, 0x35] := by
  intro w calls file parsed
  let shown : Document := ⟨.rfc8259, [0x31, 0x32, 0x33],
    [{ Token.blank with type := .number, stop := 3, text := some 0, textSize := 3 }], 3,
    [0x31, 0x32, 0x33, 0], 7, [], 0⟩
  have hDocument : parsed.document = some shown := by decide +kernel
  have hTree : documentTree shown = .ok (.number [0x31, 0x32, 0x33]) := by rfl
  obtain ⟨t, hBuilt, hShows⟩ := @writerFinishFile_torn (fun _ => some file) [0x61] file
    ⟨fun _ => true, []⟩ ⟨fun _ => true, []⟩ ⟨fun _ => true, [144, 256, 256]⟩ .rfc8259 none none true
    shown 0 w calls ⟨3, true, [], []⟩ ⟨3, true, [0x31, 0x32, 0x33], []⟩ rfl
    (by simp [calls, WriterCall.Sourced, WriterCall.source]) (by decide +kernel)
    rfl (by decide +kernel) rfl ⟨rfl, rfl⟩ (by decide) hDocument
  obtain rfl : t = .number (.unsigned 12345) := hBuilt.unique rfl
  have hNumber : (Tree.number (.unsigned 12345) : Tree Numeral).json.sorted =
      .number [0x31, 0x32, 0x33, 0x34, 0x35] := by
    have hText : decimalU64 12345 = [0x31, 0x32, 0x33, 0x34, 0x35] := by decide +kernel
    rw [← hText]
    rfl
  refine ⟨by decide +kernel, shown, _, hDocument, hBuilt, ?_⟩
  rcases hShows with hWhole | ⟨lexeme, rest, hRest, hSorted, hShown⟩
  · rw [hTree, hNumber] at hWhole
    simp at hWhole
  · rw [hTree] at hShown
    rw [hNumber] at hSorted
    obtain rfl : lexeme = [0x31, 0x32, 0x33] := Tree.number.inj (Except.ok.inj hShown.symm)
    exact ⟨_, rest, hRest, hNumber.trans hSorted, hTree, rfl,
      (by simpa using (Tree.number.inj hSorted).symm)⟩

/-- A value built by calls that succeed, finished to a stream that reports success and parsed
from a file with the bytes passed on: the file is accepted and shows the value, its members in key
order, in whatever pieces it is read. -/
theorem writerFinishFile_roundTrip
    (hCreate : writerCreate heap profile requested flags = (.ok w, h))
    (hSourced : ∀ c ∈ calls, c.Sourced)
    (hOk : ∀ returned ∈ (callAll calls w).1, returned.result = .ok) (hEmpty : st.accepted = [])
    (hFinish : (writerFinishFile (callAll calls w).2 (some st)).result = .ok) :
    ∃ t left, Built calls t ∧ (writerFinishFile (callAll calls w).2 (some st)).stream = some left ∧
      ∀ (fopen : Bytes → Option InputStream) (path : Bytes) (stream : InputStream) (heap' : Heap)
        (requested' : Option Limits) (limits' : Limits) (bound : Nat) (errorGiven : Bool),
          fopen path = some stream →
        stream.Open → stream.contents = left.flushed → stream.breaks = false →
        stream.closes = true → heap'.Generous →
        limitsResolve requested' = .ok limits' → left.flushed.length ≤ limits'.maximumBytes →
        t.depth ≤ limits'.maximumDepth → t.tokens ≤ limits'.maximumTokens →
        documentParseAllocationBound left.flushed.length profile requested' = .ok bound →
        let parsed := documentParseFile fopen heap' (some path) profile requested' errorGiven
        parsed.result = .ok ∧ ∃ document, parsed.document = some document ∧
          documentTree document = .ok t.json.sorted := by
  obtain ⟨hCall, hStream⟩ := writerFinishFile_ok hFinish
  obtain ⟨t, limits, -, hBuilt, hAdmitted, hProfile, hOutput, -⟩ :=
    finish_built hCreate hSourced hOk hCall
  refine ⟨t, _, hBuilt, hStream _ hOutput, ?_⟩
  intro fopen path stream heap' requested' limits' bound errorGiven hFile hOpen hContents hBreaks
    hCloses hHeap hLimits hSize hDepth hTokens hBound
  rw [hEmpty, List.nil_append] at hContents hSize hBound
  obtain ⟨hResult, document, survivor, hDocument, hPublished, hJson⟩ :=
    outputOf_parses hProfile hAdmitted (hHeap.after [limits'.maximumBytes + 1]) hLimits hSize hDepth
      hTokens hBound errorGiven
  have hParse := documentParseFile_fits hFile hOpen hLimits (hHeap.grants _)
    (by rw [hContents]; exact hSize) profile errorGiven
  simp only [hContents, hBreaks, hCloses, Bool.false_eq_true, Bool.true_eq_false, or_self,
    if_false] at hParse
  rw [hParse]
  exact ⟨hResult, document, hDocument, by rw [documentTree_eq hPublished, hJson]⟩

/-- The object `{"a":1}`, read back in two pieces. -/
theorem writerFinishFile_roundTrip_object :
    let w := Writer.fresh .rfc8259 ⟨65535, 32, 8192⟩ 0 ⟨fun _ => true, [144, 256, 256]⟩
    let calls : List WriterCall := [.objectBegin, .key (.buffer [0x61]), .u64 1, .objectEnd]
    let bytes : Bytes := [0x7b, 0x22, 0x61, 0x22, 0x3a, 0x31, 0x7d]
    let file : InputStream := ⟨[bytes.take 3, bytes.drop 3], false, true, false, false⟩
    let parsed := documentParseFile (fun _ => some file) ⟨fun _ => true, []⟩ (some [0x61])
      .rfc8259 none true
    (writerFinishFile (callAll calls w).2 (some ⟨100, true, [], []⟩)).stream =
      some ⟨100, true, bytes, bytes⟩ ∧
      parsed.result = .ok ∧ ∃ document, parsed.document = some document ∧
        documentTree document = .ok (.object [([0x61], .number [0x31])]) := by
  intro w calls bytes file parsed
  obtain ⟨t, left, hBuilt, hLeft, hParses⟩ := @writerFinishFile_roundTrip ⟨fun _ => true, []⟩
    ⟨fun _ => true, [144, 256, 256]⟩ .rfc8259 none 0 w calls ⟨100, true, [], []⟩ rfl
    (by simp [calls, WriterCall.Sourced, WriterCall.source]) (by decide +kernel) rfl
    (by decide +kernel)
  obtain rfl : left = ⟨100, true, bytes, bytes⟩ :=
    Option.some.inj (hLeft.symm.trans (by decide +kernel))
  obtain rfl : t = .object [([0x61], .number (.unsigned 1))] := hBuilt.unique rfl
  exact ⟨hLeft, hParses (fun _ => some file) [0x61] file ⟨fun _ => true, []⟩ none ⟨65535, 32, 8192⟩
    903 true rfl ⟨rfl, rfl⟩ rfl rfl rfl (fun _ => rfl) rfl (by decide) (by decide) (by decide)
    (by decide)⟩

end

end MaelysJson
