import MaelysJson.RoundTrip.Copies
import MaelysJson.RoundTrip.Output

/-! Which documents a copy carries over: those without a fraction or an exponent behind an
integer part that is out of range. What is carried over reads back as the same value. -/
namespace MaelysJson

open Grammar Heap

/-! ### The same number -/

/-- The same integer, or for a number with a fraction or an exponent the same lexeme. -/
def SameNumber (lexeme lexeme' : Bytes) : Prop :=
  if WrittenWhole lexeme then WrittenWhole lexeme' ∧ wholeValue lexeme' = wholeValue lexeme
  else lexeme' = lexeme

/-- The same value up to the order of members and the spelling of integers. -/
def SameValue (t t' : Json) : Prop :=
  ∃ f : Bytes → Bytes, t.Every (fun _ => True) (fun lexeme => SameNumber lexeme (f lexeme)) ∧
    (t.map f).Reordered t'

theorem ShortestDecimal.whole {value : Int} {bytes : Bytes} (h : ShortestDecimal value bytes) :
    Number bytes ∧ WrittenWhole bytes ∧ wholeValue bytes = value := by
  obtain ⟨parts, hParts, hInteger, -, hValue, rfl⟩ := h
  exact ⟨⟨parts, hParts, rfl⟩, (writtenWhole_parts hParts).mpr hInteger,
    (wholeValue_parts hParts).trans hValue⟩

/-- What a copied number is written as. -/
def rendered (lexeme : Bytes) : Bytes := (copiedNumeral lexeme).text

theorem rendered_whole {lexeme : Bytes} (h : Number lexeme) (hFits : WholeFits lexeme)
    (hWhole : WrittenWhole lexeme) :
    ShortestDecimal (wholeValue lexeme) (rendered lexeme) := by
  obtain ⟨parts, hParts, rfl⟩ := h
  rw [wholeValue_parts hParts]
  exact copiedNumeral_whole hParts ((writtenWhole_parts hParts).mp hWhole) hFits

theorem rendered_other {lexeme : Bytes} (h : ¬WrittenWhole lexeme) : rendered lexeme = lexeme := by
  rw [rendered, copiedNumeral_other fun hBoth => h hBoth.2]
  rfl

theorem sameNumber_rendered {lexeme : Bytes} (h : Number lexeme) (hFits : WholeFits lexeme) :
    SameNumber lexeme (rendered lexeme) := by
  rw [SameNumber]
  split_ifs with hWhole
  · exact (rendered_whole h hFits hWhole).whole.2
  · exact rendered_other hWhole

/-! ### Reading the copy -/

variable {document : Document} {profile profile' : Profile} {limits limits' : Limits}
  {bytes : Bytes} {t : Json} {flags : UInt32} {heap : Heap} {requested : Option Limits}
  {bound : Nat}

/-- What a writer put out parses, under its profile, into a document of the value in key order. -/
theorem outputOf_represents {numerals : Tree Numeral} (hProfile : profile ≠ .rfc8259LastWins)
    (h : numerals.Admitted profile limits []) (hHeap : heap.Generous)
    (hLimits : limitsResolve requested = .ok limits')
    (hSize : (outputOf flags numerals.json).length ≤ limits'.maximumBytes)
    (hDepth : numerals.depth ≤ limits'.maximumDepth)
    (hTokens : numerals.tokens ≤ limits'.maximumTokens)
    (hBound : documentParseAllocationBound (outputOf flags numerals.json).length profile
      requested = .ok bound)
    (errorGiven : Bool) :
    (documentParse heap (.buffer (outputOf flags numerals.json)) profile requested
      errorGiven).result = .ok ∧
      ∃ document, (documentParse heap (.buffer (outputOf flags numerals.json)) profile requested
          errorGiven).document = some document ∧
        document.Represents profile limits' (outputOf flags numerals.json)
          numerals.json.sorted := by
  obtain ⟨hResult, document, -, hParse, -⟩ :=
    outputOf_parses hProfile h hHeap hLimits hSize hDepth hTokens hBound errorGiven
  obtain ⟨limits'', t, -, hLimits'', -, hDocument⟩ := documentParse_represents hParse
  obtain rfl : limits' = limits'' := Except.ok.inj (hLimits.symm.trans hLimits'')
  obtain rfl : t = numerals.json.sorted := hDocument.text.unique (text_outputOf hProfile h)
  exact ⟨hResult, document, hParse, hDocument⟩

theorem Document.Represents.documentTree (h : document.Represents profile limits bytes t) :
    documentTree document = .ok t.lastWins := by
  rw [MaelysJson.documentTree, h.root]
  exact h.carries.tree

/-- A smaller text needs less memory, and the strict profiles need less than the tolerant one. -/
theorem allocationBound_mono {size size' : Nat} (hLimits : limitsResolve requested = .ok limits)
    (hSize : size ≤ limits.maximumBytes) (hLe : size' ≤ size)
    (hBound : documentParseAllocationBound size profile requested = .ok bound)
    (hStrict : profile' ≠ .rfc8259LastWins) :
    ∃ bound', documentParseAllocationBound size' profile' requested = .ok bound' := by
  rw [documentParseAllocationBound_eq hLimits hSize] at hBound
  rw [documentParseAllocationBound_eq hLimits (hLe.trans hSize)]
  split_ifs at hBound with hFits
  have hProfile : allocationSum size profile' limits ≤ allocationSum size profile limits := by
    have hCopies : 1 ≤ if profile = .rfc8259LastWins then 2 else 1 := by split_ifs <;> decide
    rw [allocationSum_eq, allocationSum_eq, if_neg hStrict]
    gcongr
  rw [if_pos ((allocationSum_mono hLe profile' limits).trans (hProfile.trans hFits))]
  exact ⟨_, rfl⟩

/-! ### The domain of copies -/

/-- The copy of a document whose integers are in range succeeds, finishes, and reads back as the
same value, exactly when no fraction or exponent stands behind an integer part that is out of
range. -/
theorem copies_total {heap h heap' : Heap} {input : CText} {errorGiven : Bool} {w : Writer}
    (hHeap : heap.Generous)
    (hParse : (documentParse heap' input profile requested errorGiven).document = some document)
    (hTree : documentTree document = .ok t)
    (hWritable : t.Every (fun _ => True) fun lexeme => WrittenWhole lexeme → WholeFits lexeme)
    (hCreate : writerCreate heap .rfc8259 requested 0 = (.ok w, h)) :
    ∃ root, documentRoot document = some root ∧
      let copied := (WriterCall.value (some document) root).call w
      let finished := (WriterCall.finish true).call copied.2
      ((copied.1.result = .ok ∧ finished.1.result = .ok ∧
          ∃ output, finished.1.output = some output ∧
          ∀ (reader : Heap) (errorGiven : Bool), reader.Generous →
            let parsed := documentParse reader (.buffer output) .rfc8259 requested errorGiven
            parsed.result = .ok ∧ ∃ again t', parsed.document = some again ∧
              documentTree again = .ok t' ∧ SameValue t t') ↔
        t.Every (fun _ => True) fun lexeme => ¬WrittenWhole lexeme → WholeFits lexeme) := by
  obtain ⟨limits, source, bound, hLimits, hBound, hDocument⟩ := documentParse_represents hParse
  obtain rfl : t = source.lastWins := Except.ok.inj (hTree.symm.trans hDocument.documentTree)
  have hAdmitted := hDocument.admitted
  have hCopied := writerCreate_copies hHeap hLimits hCreate hDocument.carries hAdmitted
  have hLength := hDocument.length_output_le
  refine ⟨0, hDocument.root, ?_⟩
  intro copied finished
  constructor
  · rintro ⟨hOk, -⟩
    exact (hCopied.whole.mp hOk).imp (fun _ _ => trivial) fun _ hFits _ => hFits
  · intro hOthers
    have hFits : source.lastWins.Every (fun _ => True) WholeFits :=
      (hWritable.and hOthers).imp (fun _ _ => trivial) fun lexeme h =>
        (em (WrittenWhole lexeme)).elim h.1 h.2
    have hOk := hCopied.whole.mpr hFits
    have hFinished := (hCopied.finish hOk).mpr (hLength.trans hDocument.size)
    refine ⟨hOk, hFinished, _, hCopied.output hFinished, fun reader errorGiven hReader => ?_⟩
    obtain ⟨bound', hBound'⟩ :=
      @allocationBound_mono _ .rfc8259 _ _ _ _ _ hLimits hDocument.size hLength hBound nofun
    obtain ⟨hDepth, hTokens, -⟩ := hDocument.acceptable
    have hDepth' : source.lastWins.copied.depth ≤ limits.maximumDepth :=
      (Nat.zero_add _).symm.le.trans hAdmitted.depth
    have hTokens' : source.lastWins.copied.tokens ≤ limits.maximumTokens := by
      rw [Tree.copied, Tree.tokens_map]
      exact source.tokens_lastWins.trans hTokens
    obtain ⟨hResult, again, hAgain, hReads⟩ := outputOf_represents (by nofun) hAdmitted
      hReader hLimits (hLength.trans hDocument.size) hDepth' hTokens' hBound' errorGiven
    refine ⟨hResult, again, _, hAgain, hReads.documentTree, rendered, ?_, ?_⟩
    · exact (hFits.and hDocument.carries.every).imp (fun _ _ => trivial) fun _ h =>
        sameNumber_rendered h.2 h.1
    · rw [Tree.lastWins_of_uniqueKeys ((uniqueKeys_json_sorted _).mpr hAdmitted.unique)]
      exact Tree.json_copied source.lastWins ▸ Tree.reordered_sorted _

/-- `0.25` is carried over. -/
theorem copies_total_quarter :
    let w := Writer.fresh .rfc8259 ⟨65535, 32, 8192⟩ 0 ⟨fun _ => true, [144, 256, 256]⟩
    let copied := (WriterCall.value (some quarterDocument) 0).call w
    let finished := (WriterCall.finish true).call copied.2
    copied.1.result = .ok ∧ finished.1.result = .ok ∧ ∃ output, finished.1.output = some output ∧
      ∀ (reader : Heap) (errorGiven : Bool), reader.Generous →
        let parsed := documentParse reader (.buffer output) .rfc8259 none errorGiven
        parsed.result = .ok ∧ ∃ again t', parsed.document = some again ∧
          documentTree again = .ok t' ∧ SameValue (.number quarterText) t' := by
  intro w
  have hFits : (Tree.number quarterText : Json).Every (fun _ => True) fun lexeme =>
    ¬WrittenWhole lexeme → WholeFits lexeme :=
    fun _ => by decide +kernel
  obtain ⟨root, hRoot, hIff⟩ := @copies_total quarterDocument .rfc8259 (.number quarterText) none
    ⟨fun _ => true, []⟩ ⟨fun _ => true, [144, 256, 256]⟩ ⟨fun _ => true, []⟩ (.buffer quarterText)
    true w (fun _ => rfl) (by decide +kernel) rfl
    (fun hWhole => absurd hWhole (by decide +kernel)) rfl
  obtain rfl : 0 = root := Option.some.inj hRoot
  exact hIff.mpr hFits

/-- The text `18446744073709551616.0`. -/
def longText : Bytes :=
  [0x31, 0x38, 0x34, 0x34, 0x36, 0x37, 0x34, 0x34, 0x30, 0x37, 0x33, 0x37, 0x30, 0x39, 0x35, 0x35,
    0x31, 0x36, 0x31, 0x36, 0x2e, 0x30]

def longDocument : Document :=
  ⟨.rfc8259, longText,
    [{ Token.blank with type := .number, stop := 22, text := some 0, textSize := 22 }], 22,
    longText ++ [0], 45, [], 0⟩

/-- It has a fraction, and yet its copy is out of range. -/
theorem copies_total_long :
    (documentParse ⟨fun _ => true, []⟩ (.buffer longText) .rfc8259 none true).document =
      some longDocument ∧
    let w := Writer.fresh .rfc8259 ⟨65535, 32, 8192⟩ 0 ⟨fun _ => true, [144, 256, 256]⟩
    writerCreate ⟨fun _ => true, []⟩ .rfc8259 none 0 = (.ok w, ⟨fun _ => true, [144, 256, 256]⟩) ∧
      documentTree longDocument = .ok (.number longText) ∧
      (Tree.number longText : Json).Every (fun _ => True) (fun lexeme => WrittenWhole lexeme →
        WholeFits lexeme) ∧
      ((WriterCall.value (some longDocument) 0).call w).1.result = .errRange :=
  ⟨by decide +kernel, rfl, rfl, fun hWhole => absurd hWhole (by decide +kernel), by decide +kernel⟩

end MaelysJson
