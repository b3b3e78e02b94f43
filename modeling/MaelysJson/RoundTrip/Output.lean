import MaelysJson.RoundTrip.Built
import MaelysJson.Serializing.Ascii
import MaelysJson.Text.Integer

/-! What a writer finishes reads back, under its own profile, as the value that was built:
the same strings and numbers, the members of each object in key order. -/
namespace MaelysJson

open Forest Grammar Heap

/-! ### Numbers read back -/

/-- A caller reads from the value at `v` the number that was written. -/
def Document.Reads (document : Document) (v : Nat) : Numeral → Prop
  | .unsigned value => valueU64 document v = .ok value
  | .signed value => valueI64 document v = .ok value
  | .lexeme text => valueNumberText document v = .ok text

variable {document : Document} {v : Nat}

theorem valueU64_decimalU64 {value : UInt64}
    (h : valueNumberText document v = .ok (decimalU64 value)) :
    valueU64 document v = .ok value := by
  have hMagnitude : (decimalParts false value.toNat).magnitude = value.toNat :=
    decimalValue_decimalFrom (value.toNat_lt.trans (by decide))
  have hInteger : (decimalParts false value.toNat).IsInteger := ⟨rfl, rfl⟩
  have hLt := value.toNat_lt
  rw [decimalU64_eq] at h
  rw [valueU64_eq h (decimalParts_wellFormed false hLt), hMagnitude, if_neg (by omega),
    if_neg (not_not.mpr hInteger), denoted_decimalU64, if_pos (Int.natCast_nonneg _),
    UInt64.ofNat_toNat]

theorem valueI64_decimalI64 {value : Int64}
    (h : valueNumberText document v = .ok (decimalI64 value)) :
    valueI64 document v = .ok value := by
  have hLt := natAbs_toInt_lt value
  have hMagnitude : (decimalParts (value < 0) value.toInt.natAbs).magnitude = value.toInt.natAbs :=
    decimalValue_decimalFrom (hLt.trans (by decide))
  have hInteger : (decimalParts (value < 0) value.toInt.natAbs).IsInteger := ⟨rfl, rfl⟩
  have hLow := value.le_toInt
  have hHigh := value.toInt_lt
  rw [decimalI64_eq] at h
  rw [valueI64_eq h (decimalParts_wellFormed _ hLt), hMagnitude, if_neg (by omega),
    if_neg (not_not.mpr hInteger), denoted_decimalI64, if_pos (by omega), Int64.ofInt_toInt]

/-- A number whose lexeme is the rendered one reads as the number. -/
theorem Document.Reads.of_text {numeral : Numeral}
    (h : valueNumberText document v = .ok numeral.text) :
    document.Reads v numeral := by
  cases numeral with
  | unsigned value => exact valueU64_decimalU64 h
  | signed value => exact valueI64_decimalI64 h
  | lexeme text => exact h

/-! ### The tree of the output -/

variable {profile : Profile} {limits limits' : Limits} {flags : UInt32} {t : Tree Numeral}
  {heap : Heap} {requested : Option Limits} {bound : Nat}

theorem tokens_json_sorted (t : Tree Numeral) : t.json.sorted.tokens = t.tokens :=
  (Tree.reordered_sorted t.json).tokens.symm.trans (Tree.tokens_map _ t)

theorem depth_json_sorted (t : Tree Numeral) : t.json.sorted.depth = t.depth :=
  (Tree.reordered_sorted t.json).depth.symm.trans (Tree.depth_map _ t)

theorem uniqueKeys_json_sorted (t : Tree Numeral) :
    t.json.sorted.uniqueKeys = true ↔ t.uniqueKeys = true :=
  (Tree.reordered_sorted t.json).uniqueKeys.symm.trans (Tree.uniqueKeys_map _ t)

/-- The output of a writer is accepted under its profile, and shows the value with its members in
key order. -/
theorem outputOf_parses {holes : List Hole} (hProfile : profile ≠ .rfc8259LastWins)
    (h : t.Admitted profile limits holes) (hHeap : heap.Generous)
    (hLimits : limitsResolve requested = .ok limits')
    (hSize : (outputOf flags t.json).length ≤ limits'.maximumBytes)
    (hDepth : t.depth ≤ limits'.maximumDepth) (hTokens : t.tokens ≤ limits'.maximumTokens)
    (hBound : documentParseAllocationBound (outputOf flags t.json).length profile
      requested = .ok bound)
    (errorGiven : Bool) :
    (documentParse heap (.buffer (outputOf flags t.json)) profile requested errorGiven).result =
      .ok ∧ ∃ (document : Document) (survivor : Source),
        (documentParse heap (.buffer (outputOf flags t.json)) profile requested
          errorGiven).document = some document ∧
        document.Published (survivor.rows 0 none) ∧ survivor.json = t.json.sorted := by
  have hUnique := (uniqueKeys_json_sorted t).mpr h.unique
  have hAcceptable : Acceptable profile limits' t.json.sorted :=
    ⟨by rwa [depth_json_sorted], by rwa [tokens_json_sorted], fun _ => hUnique⟩
  obtain ⟨document, heap', survivor, hParse, hPublished, hJson, -⟩ := documentParse_ok hHeap hLimits
    hSize hBound errorGiven (text_outputOf hProfile h) hAcceptable
  rw [Tree.lastWins_of_uniqueKeys hUnique] at hJson
  rw [hParse]
  exact ⟨rfl, document, survivor, rfl, hPublished, hJson⟩

/-- Where the built value has a number, in key order, a caller reads that number. -/
theorem Document.Published.reads {survivor : Source}
    (hPublished : document.Published (survivor.rows 0 none)) (hJson : survivor.json = t.json.sorted)
    {path : List Step} {numeral : Numeral}
    (hFollow : t.sorted.follow path = some (.number numeral)) :
    ∃ v, valueAt document 0 path = .ok v ∧ document.Reads v numeral := by
  have hPath := valueAt_eq hPublished survivor (Rose.at_rows survivor.rose) path
  rw [hJson, Tree.json, Tree.sorted_map, Tree.follow_map, hFollow] at hPath
  obtain ⟨v, s, hValue, hAt, hNumber⟩ := hPath
  refine ⟨v, hValue, .of_text ?_⟩
  cases s with
  | number span lexeme =>
      obtain rfl : lexeme = numeral.text := Tree.number.inj hNumber
      exact hPublished.textView_eq hAt
  | object span members =>
      exact absurd (Source.json_object span members ▸ hNumber) (by intro h; cases h)
  | array span elements =>
      exact absurd (Source.json_array span elements ▸ hNumber) (by intro h; cases h)
  | _ => cases hNumber

theorem ascii_outputOf {holes : List Hole} (h : t.Admitted profile limits holes)
    (hAscii : flags &&& asciiFlag ≠ 0) :
    Ascii (outputOf flags t.json) := by
  have hNumbers : t.json.sorted.Every (fun _ => True) Number := by
    rw [← (Tree.reordered_sorted _).every, Tree.json, Tree.every_map]
    exact h.every.imp (fun _ _ => trivial) fun numeral hNumeral => hNumeral.number
  have hTrailer : Ascii (trailer flags) := by
    rw [trailer]
    split_ifs <;> simp
  have hLayout : (flagsLayout flags).ascii = true := decide_eq_true hAscii
  rw [outputOf, ascii_append]
  exact ⟨ascii_spell hLayout 0 hNumbers, hTrailer⟩

/-! ### The round trip -/

/-- Whatever successful calls build, in whatever form it is finished: the output is accepted
again, and shows the value that was built with the members of each object in key order. -/
theorem output_roundTrip {heap h : Heap} {profile : Profile} {requested : Option Limits}
    {flags : UInt32} {w : Writer} (hCreate : writerCreate heap profile requested flags = (.ok w, h))
    {calls : List WriterCall} (hSourced : ∀ c ∈ calls, c.Sourced)
    (hOk : ∀ returned ∈ (callAll calls w).1, returned.result = .ok)
    (hFinish : ((WriterCall.finish true).call (callAll calls w).2).1.result = .ok) :
    ∃ t output, Built calls t ∧ ((WriterCall.finish true).call (callAll calls w).2).1.output =
      some output ∧ (flags &&& asciiFlag ≠ 0 → Ascii output) ∧
      ∀ (heap' : Heap) (requested' : Option Limits) (limits' : Limits) (bound : Nat)
        (errorGiven : Bool),
        heap'.Generous → limitsResolve requested' = .ok limits' →
        output.length ≤ limits'.maximumBytes →
        t.depth ≤ limits'.maximumDepth → t.tokens ≤ limits'.maximumTokens →
        documentParseAllocationBound output.length profile requested' = .ok bound →
        let parsed := documentParse heap' (.buffer output) profile requested' errorGiven
        parsed.result = .ok ∧ ∃ document, parsed.document = some document ∧
          documentTree document = .ok t.json.sorted ∧
          ∀ path numeral, t.sorted.follow path = some (.number numeral) →
            ∃ v, valueAt document 0 path = .ok v ∧ document.Reads v numeral := by
  obtain ⟨t, limits, -, hBuilt, hAdmitted, hProfile, hOutput, -⟩ :=
    finish_built hCreate hSourced hOk hFinish
  refine ⟨t, outputOf flags t.json, hBuilt, hOutput, ascii_outputOf hAdmitted, ?_⟩
  intro heap' requested' limits' bound errorGiven hHeap hLimits hSize hDepth hTokens hBound
  obtain ⟨hResult, document, survivor, hDocument, hPublished, hJson⟩ :=
    outputOf_parses hProfile hAdmitted hHeap hLimits hSize hDepth hTokens hBound errorGiven
  refine ⟨hResult, document, hDocument, ?_, fun path numeral hFollow =>
    hPublished.reads hJson hFollow⟩
  rw [documentTree_eq hPublished, hJson]

/-- An object with members out of order, indented and in ASCII:
```
{
  "a": "\u00e9",
  "b": -7
}
``` -/
theorem output_roundTrip_ascii :
    let w := Writer.fresh .rfc8259 ⟨65535, 32, 8192⟩ 6 ⟨fun _ => true, [144, 256, 256]⟩
    let calls : List WriterCall :=
      [.objectBegin, .key (.buffer [0x62]), .i64 (-7), .key (.buffer [0x61]),
      .string (.buffer [0xc3, 0xa9]), .objectEnd]
    let output : Bytes :=
      [0x7b, 0x0a, 0x20, 0x20, 0x22, 0x61, 0x22, 0x3a, 0x20, 0x22, 0x5c, 0x75, 0x30, 0x30, 0x65,
      0x39, 0x22, 0x2c, 0x0a, 0x20, 0x20, 0x22, 0x62, 0x22, 0x3a, 0x20, 0x2d, 0x37, 0x0a, 0x7d]
    let parsed := documentParse ⟨fun _ => true, []⟩ (.buffer output) .rfc8259 none true
    ((WriterCall.finish true).call (callAll calls w).2).1.output = some output ∧ Ascii output ∧
      parsed.result = .ok ∧ ∃ document, parsed.document = some document ∧
        documentTree document =
          .ok (.object [([0x61], .string [0xc3, 0xa9]), ([0x62], .number [0x2d, 0x37])]) ∧
        ∃ v, valueAt document 0 [.key [0x62]] = .ok v ∧ valueI64 document v = .ok (-7) := by
  intro w calls output parsed
  have hOutput : ((WriterCall.finish true).call (callAll calls w).2).1.output = some output := by
    decide +kernel
  obtain ⟨t, output', hBuilt, hOutput', hAscii, hParses⟩ := @output_roundTrip ⟨fun _ => true, []⟩
    ⟨fun _ => true, [144, 256, 256]⟩ .rfc8259 none 6 w rfl calls
    (by simp [calls, WriterCall.Sourced, WriterCall.source]) (by decide +kernel) (by decide +kernel)
  obtain rfl : output = output' := Option.some.inj (hOutput.symm.trans hOutput')
  obtain rfl : t = .object [([0x62], .number (.signed (-7))), ([0x61], .string [0xc3, 0xa9])] :=
    hBuilt.unique rfl
  obtain ⟨hResult, document, hDocument, hTree, hReads⟩ := hParses ⟨fun _ => true, []⟩ none ⟨65535,
    32, 8192⟩ 3556 true (fun _ => rfl) rfl (by decide) (by decide) (by decide) (by decide)
  refine ⟨hOutput, hAscii (by decide), hResult, document, hDocument, hTree, ?_⟩
  exact hReads [.key [0x62]] (.signed (-7)) rfl

end MaelysJson
