import MaelysJson.Reading.Language
import MaelysJson.Serializing.Acceptance

/-! One number grammar: the scanner, the writer and the parser take the same numbers. -/
namespace MaelysJson

open Grammar Heap

variable {heap heap' h : Heap} {w : Writer} {s : Bytes}

/-- The writer takes a lexeme that the scanner accepts, when it is short enough. -/
theorem numberText_accepts (hHeap : heap.Generous)
    (hCreate : writerCreate heap .rfc8259 none 0 = (.ok w, h))
    (hLength : s.length ≤ maximumNumberText) :
    (((WriterCall.numberText (.buffer s)).call w).1.result = .ok ↔ Number s) ∧
      (Number s →
        ((WriterCall.finish true).call ((WriterCall.numberText (.buffer s)).call w).2).1 =
          ⟨.ok, some s⟩) := by
  have hLimits : limitsResolve none = .ok ⟨65535, 32, 8192⟩ := by rfl
  have hSingle : ∀ c ∈ [WriterCall.numberText (.buffer s)], c.Single := by
    rw [List.forall_mem_singleton]
    exact ⟨rfl, nofun⟩
  have hOutput : outputOf 0 (Tree.json (.number (.lexeme s))) = s := List.append_nil s
  have hAccepted (hNumber : Number s) :
      Accepted .rfc8259 ⟨65535, 32, 8192⟩ 0 [.numberText (.buffer s)] (.number (.lexeme s)) := by
    refine ⟨rfl, rfl, ⟨hNumber, hLength⟩, (by decide : 1 ≤ 8192), Nat.zero_le _, ?_⟩
    rw [hOutput]
    exact hLength.trans (by decide)
  have hWritten (hNumber : Number s) :=
    (hAccepted hNumber).written hHeap hLimits hCreate hSingle
  refine ⟨⟨fun hOk => ?_, fun hNumber => ?_⟩, fun hNumber => ?_⟩
  · by_contra hNot
    rw [← numberSyntax_iff, Bool.not_eq_true] at hNot
    have hRun : writerNumberText (.buffer s) w = .error .errArgument w := by
      have hRefused : s.length > maximumNumberText ∨ (!numberSyntax s) = true :=
        Or.inr (by rw [hNot]; rfl)
      exact congrFun (if_pos hRefused) w
    rw [WriterCall.call,
      show WriterCall.operation (.numberText (.buffer s)) w = .error .errArgument w from
      Run.bind_of_error hRun] at hOk
    cases hOk
  · exact (hWritten hNumber).1 _ List.mem_cons_self
  · obtain ⟨-, -, -, hDone⟩ := hWritten hNumber
    rwa [hOutput] at hDone

/-- A document shows one number: its root is that number. -/
theorem documentTree_number_iff (document : Document) :
    documentTree document = .ok (.number s) ↔
      ∃ root, documentRoot document = some root ∧ valueType document root = .number ∧
        valueNumberText document root = .ok s := by
  rw [documentTree]
  cases hRoot : documentRoot document with
  | none => exact ⟨(by simp), fun h => by simp at h⟩
  | some root =>
      have hFuel : document.tokens.length ≠ 0 := by
        intro hEmpty
        rw [documentRoot, if_pos hEmpty] at hRoot
        cases hRoot
      obtain ⟨fuel, hFuel⟩ := Nat.exists_eq_succ_of_ne_zero hFuel
      simp only [hFuel, valueTree, Option.some.injEq, exists_eq_left']
      cases valueType document root with
      | number =>
          cases valueNumberText document root with
          | error r => exact ⟨(by simp), fun h => by simp at h⟩
          | ok lexeme =>
              constructor
              · rintro ⟨⟩
                exact ⟨rfl, rfl⟩
              · rintro ⟨-, ⟨⟩⟩
                rfl
      | _ =>
          -- every other kind of value is read as a tree of that kind
          refine ⟨fun h => ?_, fun h => by simp at h⟩
          simp only [bind, Except.bind, pure, Except.pure] at h
          repeat' split at h
          all_goals cases h

/-- A text whose value is a number with the whole text as its lexeme. -/
theorem text_number_iff : Text .rfc8259 s (.number s) ↔ Number s := by
  constructor
  · rintro ⟨before, body, after, -, hValue, -, hSplit⟩
    cases hValue with
    | number hNumber => exact hNumber
  · intro hNumber
    exact ⟨[], s, [], nofun, .number hNumber, nofun, (List.append_nil s).symm⟩

/-- The scanner derives the number rule; the writer takes a short lexeme exactly where the
parser reads the whole text as one number, and writes it back. -/
theorem number_grammar :
    (∀ s : Bytes, numberSyntax s = true ↔ Number s) ∧
      ∀ {heap heap' h : Heap} {w : Writer} {s : Bytes}, heap.Generous → heap'.Generous →
        writerCreate heap .rfc8259 none 0 = (.ok w, h) → s.length ≤ 64 →
        (((WriterCall.numberText (.buffer s)).call w).1.result = .ok ↔
          ∃ document root, (documentParse heap' (.buffer s) .rfc8259 none true).result = .ok ∧
            (documentParse heap' (.buffer s) .rfc8259 none true).document = some document ∧
            documentRoot document = some root ∧ valueType document root = .number ∧
            valueNumberText document root = .ok s) ∧
          (((WriterCall.numberText (.buffer s)).call w).1.result = .ok →
            ((WriterCall.finish true).call ((WriterCall.numberText (.buffer s)).call w).2).1 =
              ⟨.ok, some s⟩) := by
  refine ⟨numberSyntax_iff, fun {heap heap' h w s} hHeap hHeap' hCreate hLength => ?_⟩
  obtain ⟨hAccepts, hFinish⟩ := numberText_accepts hHeap hCreate hLength
  refine ⟨?_, fun hOk => hFinish (hAccepts.mp hOk)⟩
  rw [hAccepts]
  have hLimits : limitsResolve none = .ok ⟨65535, 32, 8192⟩ := by rfl
  have hSize : s.length ≤ 65535 := hLength.trans (by decide)
  have hBounds : ∀ n < 65, (documentParseAllocationBound n .rfc8259 none).toOption.isSome =
    true := by decide +kernel
  obtain ⟨bound, hBound⟩ : ∃ bound, documentParseAllocationBound s.length .rfc8259 none =
      .ok bound := by
    have hSome := hBounds s.length (Nat.lt_succ_of_le hLength)
    cases hResult : documentParseAllocationBound s.length .rfc8259 none with
    | ok bound => exact ⟨bound, rfl⟩
    | error r =>
        rw [hResult] at hSome
        cases hSome
  constructor
  · intro hNumber
    have hText := text_number_iff.mpr hNumber
    have hOk := (documentParse_accepts hHeap' hLimits hSize hBound true).mpr
      ⟨_, hText, Nat.zero_le _, (by decide : 1 ≤ 8192), fun _ => rfl⟩
    obtain ⟨document, hDocument, hTree⟩ :=
      documentParse_strictTree hHeap' (by decide) hLimits hSize hBound true hText hOk
    obtain ⟨root, hRoot⟩ := (documentTree_number_iff document).mp hTree
    exact ⟨document, root, hOk, hDocument, hRoot⟩
  · rintro ⟨document, root, hOk, hDocument, hRoot, hType, hLexeme⟩
    obtain ⟨t, hText, -⟩ := (documentParse_accepts hHeap' hLimits hSize hBound true).mp hOk
    obtain ⟨document', hDocument', hTree⟩ :=
      documentParse_strictTree hHeap' (by decide) hLimits hSize hBound true hText hOk
    obtain rfl : document = document' := Option.some.inj (hDocument.symm.trans hDocument')
    have hNumber := (documentTree_number_iff document).mpr ⟨root, hRoot, hType, hLexeme⟩
    rw [hTree, Except.ok.injEq] at hNumber
    subst hNumber
    exact text_number_iff.mp hText

/-- The writer takes `-0`, the parser reads it as a number with this lexeme, and so it is
written. -/
theorem number_grammar_negativeZero :
    let w : Writer := .fresh .rfc8259 ⟨65535, 32, 8192⟩ 0 ⟨fun _ => true, [144, 256, 256]⟩
    let parsed := documentParse ⟨fun _ => true, []⟩ (.buffer [0x2d, 0x30]) .rfc8259 none true
    Number [0x2d, 0x30] ∧ ((WriterCall.numberText (.buffer [0x2d, 0x30])).call w).1.result = .ok ∧
      (∃ document root, parsed.result = .ok ∧ parsed.document = some document ∧
        documentRoot document = some root ∧
        valueType document root = .number ∧ valueNumberText document root = .ok [0x2d, 0x30]) ∧
      ((WriterCall.finish true).call ((WriterCall.numberText (.buffer [0x2d, 0x30])).call w).2).1 =
        ⟨.ok, some [0x2d, 0x30]⟩ := by
  intro w parsed
  have hOk : ((WriterCall.numberText (.buffer [0x2d, 0x30])).call w).1.result = .ok := by
    decide +kernel
  obtain ⟨hIff, hFinish⟩ := @number_grammar.2 ⟨fun _ => true, []⟩ ⟨fun _ => true, []⟩
    ⟨fun _ => true, [144, 256, 256]⟩ w [0x2d, 0x30] (fun _ => rfl) (fun _ => rfl) (by rfl)
    (by decide)
  exact ⟨(number_grammar.1 _).mp (by decide), hOk, hIff.mp hOk, hFinish hOk⟩

end MaelysJson
