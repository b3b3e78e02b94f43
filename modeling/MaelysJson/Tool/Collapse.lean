import MaelysJson.RoundTrip.Fixpoint
import MaelysJson.Tool.Canon

/-! Runs of the tool one after the other. What one run writes means for the next run what the
first input meant, so the forms of a value collapse to the one that is asked for last. -/
namespace MaelysJson

open Grammar Heap

variable {options options' : CanonOptions} {input presented : Bytes} {t : Json}

/-! ### What is written -/

namespace CanonOptions.Accepts

theorem every (h : options.Accepts input t) (hKnown : options.Known) :
    t.Every (PlainText options.profile) Number := by
  obtain ⟨before, body, after, -, hValue, -⟩ := h.1
  have hEvery := hValue.every
  rwa [writerProfile_strict hKnown.profile] at hEvery

theorem unique (h : options.Accepts input t) (hKnown : options.Known) : t.uniqueKeys = true :=
  h.2.2.2 hKnown.profile

theorem normal (h : options.Accepts input t) (hKnown : options.Known)
    (hFits : t.Every (fun _ => True) WholeFits) :
    t.normal.Normal :=
  Tree.normal_spec (h.unique hKnown)
    ((h.every hKnown).imp (fun _ hText => hText.relax) fun _ hNumber => hNumber) hFits

/-- A value that was read within the limits can be written within them. -/
theorem admitted (h : options.Accepts input t) (hKnown : options.Known)
    (hSize : input.length ≤ inputLimit) :
    t.copied.Admitted options.profile canonLimits [] := by
  have hTexts (text : Bytes) (hText : text ∈ t.texts) : text.length ≤ canonLimits.maximumBytes :=
    (List.le_sum_of_mem (List.mem_map_of_mem hText)).trans (h.1.texts_le.trans hSize)
  exact Tree.copied_admitted (h.unique hKnown) (h.every hKnown) (Tree.every_length_le hTexts) h.2.1
    (t.values_le_tokens.trans h.2.2.1)

/-- What is written for an input is accepted, with the value of the input in normal form. -/
theorem written (h : options.Accepts input t) (hKnown : options.Known)
    (hSize : input.length ≤ inputLimit) (hProfile : options'.profile = options.profile)
    (flags : UInt32) :
    options'.Accepts (outputOf flags t.copied.json) t.normal := by
  have hText := @text_outputOf _ _ flags _ _ hKnown.profile (h.admitted hKnown hSize)
  have hNormal : t.copied.json.sorted = t.normal := congrArg Tree.sorted (Tree.json_copied t)
  rw [hNormal] at hText
  have hReordered := Tree.reordered_sorted (t.map rendered)
  rw [CanonOptions.Accepts, hProfile]
  refine ⟨hText, ?_, ?_, fun _ => ?_⟩
  · rw [Tree.normal, ← hReordered.depth, Tree.depth_map]
    exact h.2.1
  · rw [Tree.normal, ← hReordered.tokens, Tree.tokens_map]
    exact h.2.2.1
  · exact hReordered.uniqueKeys.mp ((Tree.uniqueKeys_map rendered t).mpr (h.unique hKnown))

end CanonOptions.Accepts

/-- The normal form is presented as the value is. -/
theorem outputOf_copied_normal (hNormal : t.normal.Normal) (flags : UInt32) :
    outputOf flags t.normal.copied.json = outputOf flags t.copied.json := by
  rw [hNormal.json_copied, outputOf, outputOf, hNormal.sorted, Tree.json_copied]
  rfl

/-! ### The next run -/

/-- A run on what another one wrote does what it would do on the first input. -/
theorem CanonMeaning.collapse {status : Nat} {output : Option Bytes} (hKnown : options.Known)
    (hSize : input.length ≤ inputLimit) (hFirst : CanonMeaning options input 0 (some presented))
    (hProfile : options'.profile = options.profile) (hCheck : options'.check = false)
    (h : CanonMeaning options' presented status output) :
    CanonMeaning options' input status output := by
  cases hFirst with
  | @written t hAccepts _ hFits hRoom =>
      have hAccepts' : options'.Accepts input t := by rwa [CanonOptions.Accepts, hProfile]
      have hNormal := hAccepts.normal hKnown hFits
      have hWritten := @CanonOptions.Accepts.written _ options' _ _ hAccepts hKnown hSize hProfile
        options.flags
      have hOutput := outputOf_copied_normal hNormal options'.flags
      cases h with
      | refused hRefused => exact absurd hWritten (hRefused _)
      | canonical _ hCheck' => exact absurd (hCheck.symm.trans hCheck') (by simp)
      | other _ hCheck' => exact absurd (hCheck.symm.trans hCheck') (by simp)
      | range hAgain _ hUnfit =>
          obtain rfl := hAgain.1.unique hWritten.1
          exact absurd hNormal.fits hUnfit
      | long hAgain _ _ hLong =>
          obtain rfl := hAgain.1.unique hWritten.1
          rw [hOutput] at hLong
          exact .long hAccepts' hCheck hFits hLong
      | written hAgain _ _ hRoom' =>
          obtain rfl := hAgain.1.unique hWritten.1
          rw [hOutput] at hRoom' ⊢
          exact .written hAccepts' hCheck hFits hRoom'

/-- A check of what another run wrote in canonical form fails for a number that is no integer, and
for nothing else. -/
theorem CanonMeaning.checked {status : Nat} {output : Option Bytes} (hKnown : options.Known)
    (hSize : input.length ≤ inputLimit) (hFirst : CanonMeaning options input 0 (some presented))
    (hProfile : options'.profile = options.profile) (hCheck : options'.check = true)
    (hFlags : options.flags = options'.flags &&& finalNewlineFlag)
    (h : CanonMeaning options' presented status output) :
    ∃ t, options.Accepts input t ∧ output = none ∧
      (status = 0 ∧ t.Every (fun _ => True) WrittenWhole ∨ status = 1 ∧
        ¬t.Every (fun _ => True) WrittenWhole) := by
  cases hFirst with
  | @written t hAccepts _ hFits hRoom =>
      have hPlain : t.Every (PlainText .rfc8259) Number :=
        (hAccepts.every hKnown).imp (fun _ hText => hText.relax) fun _ hNumber => hNumber
      have hNormal := hAccepts.normal hKnown hFits
      have hWritten := @CanonOptions.Accepts.written _ options' _ _ hAccepts hKnown hSize hProfile
        options.flags
      have hWhole := Tree.whole_normal hPlain hFits
      refine ⟨t, hAccepts, ?_⟩
      cases h with
      | refused hRefused => exact absurd hWritten (hRefused _)
      | canonical hAgain _ hNumbers =>
          obtain rfl := hAgain.1.unique hWritten.1
          exact ⟨rfl, .inl ⟨rfl, hWhole.mp (hNumbers.imp (fun _ _ => trivial) fun _ h => h.1)⟩⟩
      | other hAgain _ hOther =>
          obtain rfl := hAgain.1.unique hWritten.1
          refine ⟨rfl, .inr ⟨rfl, fun hNumbers => hOther ⟨?_, ?_⟩⟩⟩
          · exact ((hWhole.mpr hNumbers).and hNormal.fits).imp (fun _ _ => trivial) fun _ h => h
          · rw [← hFlags, outputOf_copied_normal hNormal]
      | range _ hCheck' => exact absurd (hCheck.symm.trans hCheck') (by simp)
      | long _ hCheck' => exact absurd (hCheck.symm.trans hCheck') (by simp)
      | written _ hCheck' => exact absurd (hCheck.symm.trans hCheck') (by simp)

/-! ### Runs in a pipeline -/

section

variable {heap heap' heap'' : Heap} {arguments : List Bytes} {stdin stdin' : InputStream}
  {stdout stdout' : Stream} {message pointer : Bytes}

theorem canonMain_run (hArguments : parseArguments arguments ⟨.rfc8259, 0, false⟩ = some options) :
    canonMain heap arguments stdin stdout message pointer =
      canonRun heap options stdin stdout message pointer ∧ options.Known := by
  refine ⟨?_, parseArguments_known ⟨by simp, by decide⟩ hArguments⟩
  simp only [canonMain, hArguments]

/-- A run that succeeds and does not check has passed on the text that it means. -/
theorem canonRun_wrote (hKnown : options.Known) (hHeap : heap.Generous) (hFilling : stdin.Filling)
    (hMode : options.check = false) (hEmpty : stdout.accepted = [])
    (hStatus : (canonRun heap options stdin stdout message pointer).status = 0) :
    CanonMeaning options (stdin.contents.take inputLimit) 0
        (some (canonRun heap options stdin stdout message pointer).stdout.flushed) ∧
      (canonRun heap options stdin stdout message pointer).stdout.flushed.length ≤ inputLimit := by
  obtain ⟨status, output, hMeaning, hDelivers⟩ :=
    canonRun_means hKnown hHeap hFilling stdout message pointer
  have hMeaning' := hMeaning
  cases hMeaning with
  | refused => exact absurd (hStatus.symm.trans hDelivers.1) (by simp)
  | canonical _ hCheck => exact absurd (hMode.symm.trans hCheck) (by simp)
  | other _ hCheck => exact absurd (hMode.symm.trans hCheck) (by simp)
  | range => exact absurd (hStatus.symm.trans hDelivers.1) (by simp)
  | long => exact absurd (hStatus.symm.trans hDelivers.1) (by simp)
  | @written t _ _ _ hRoom =>
      obtain ⟨hExit, hStream⟩ := hDelivers
      rw [hStatus] at hExit
      split_ifs at hExit with hTaken
      have hFlushed : (canonRun heap options stdin stdout message pointer).stdout.flushed =
          outputOf options.flags t.copied.json := by
        rw [hStream, Stream.given, if_pos hTaken, hEmpty]
        rfl
      rw [hFlushed]
      exact ⟨hMeaning', hRoom⟩

/-- Two runs with one meaning are alike outside. -/
theorem CanonRun.Delivers.congr {run run' : CanonRun} {status : Nat} {output : Option Bytes}
    (h : run.Delivers status output stdout) (h' : run'.Delivers status output stdout) :
    run'.status = run.status ∧ run'.stdout = run.stdout := by
  cases output with
  | none => exact ⟨h'.1.trans h.1.symm, h'.2.trans h.2.symm⟩
  | some bytes => exact ⟨h'.1.trans h.1.symm, h'.2.trans h.2.symm⟩

end

/-- The second run of a pipeline, on all that the first one passed on: without `--check` it is a
run on the input of the first, with `--check` it looks for a number that is no integer. -/
theorem canonMain_pipeline {heap heap' heap'' : Heap} {arguments arguments' : List Bytes}
    {stdin stdin' : InputStream} {stdout stdout' : Stream}
    {message message' message'' pointer pointer' pointer'' : Bytes} (hHeap : heap.Generous)
    (hHeap' : heap'.Generous) (hHeap'' : heap''.Generous) (hFilling : stdin.Filling)
    (hFilling' : stdin'.Filling)
    (hArguments : parseArguments arguments ⟨.rfc8259, 0, false⟩ = some options)
    (hArguments' : parseArguments arguments' ⟨.rfc8259, 0, false⟩ = some options')
    (hProfile : options'.profile = options.profile) (hMode : options.check = false)
    (hEmpty : stdout.accepted = [])
    (hStatus : (canonMain heap arguments stdin stdout message pointer).status = 0)
    (hPipe : stdin'.contents =
      (canonMain heap arguments stdin stdout message pointer).stdout.flushed) :
    let second := canonMain heap' arguments' stdin' stdout' message' pointer'
    let direct := canonMain heap'' arguments' stdin stdout' message'' pointer''
    (options'.check = false → second.status = direct.status ∧ second.stdout = direct.stdout) ∧
      (options'.check = true → options.flags = options'.flags &&& finalNewlineFlag →
        second.stdout = stdout' ∧ ∃ t, options.Accepts (stdin.contents.take inputLimit) t ∧
          (second.status = 0 ∧ t.Every (fun _ => True) WrittenWhole ∨
            second.status = 1 ∧ ¬t.Every (fun _ => True) WrittenWhole)) := by
  intro second direct
  obtain ⟨hMain, hKnown⟩ := @canonMain_run _ heap _ stdin stdout message pointer hArguments
  obtain ⟨hSecond, hKnown'⟩ := @canonMain_run _ heap' _ stdin' stdout' message' pointer' hArguments'
  obtain ⟨hDirect, -⟩ := @canonMain_run _ heap'' _ stdin stdout' message'' pointer'' hArguments'
  rw [hMain] at hStatus hPipe
  obtain ⟨hFirst, hLength⟩ := canonRun_wrote hKnown hHeap hFilling hMode hEmpty hStatus
  rw [← hPipe] at hFirst hLength
  have hSize : (stdin.contents.take inputLimit).length ≤ inputLimit := List.length_take_le _ _
  obtain ⟨status, output, hMeaning, hDelivers⟩ :=
    canonRun_means hKnown' hHeap' hFilling' stdout' message' pointer'
  rw [List.take_of_length_le hLength] at hMeaning
  refine ⟨fun hCheck => ?_, fun hCheck hFlags => ?_⟩
  · obtain ⟨status', output', hMeaning', hDelivers'⟩ :=
      canonRun_means hKnown' hHeap'' hFilling stdout' message'' pointer''
    obtain ⟨rfl, rfl⟩ :=
      (CanonMeaning.collapse hKnown hSize hFirst hProfile hCheck hMeaning).unique hMeaning'
    simp only [second, direct, hSecond, hDirect]
    exact hDelivers'.congr hDelivers
  · obtain ⟨t, hAccepts, rfl, hCases⟩ :=
      CanonMeaning.checked hKnown hSize hFirst hProfile hCheck hFlags hMeaning
    simp only [second, hSecond]
    refine ⟨hDelivers.2, t, hAccepts, ?_⟩
    rwa [hDelivers.1]

/-- `[2, 1]` with `--newline`, and then with `--newline --check`: the check succeeds. -/
theorem canonMain_pipeline_array :
    let first := canonMain ⟨fun _ => true, []⟩ [ascii "--newline"]
      ⟨[ascii "[2, 1]"], false, true, false, false⟩ ⟨100, true, [], []⟩ [] []
    let second := canonMain ⟨fun _ => true, []⟩ [ascii "--newline", ascii "--check"]
      ⟨[ascii "[2,1]\n"], false, true, false, false⟩ ⟨100, true, [], []⟩ [] []
    first.stdout.flushed = ascii "[2,1]\n" ∧ second.status = 0 ∧
      second.stdout = ⟨100, true, [], []⟩ ∧
      ∃ t, CanonOptions.Accepts ⟨.rfc8259, 1, false⟩ (ascii "[2, 1]") t ∧
        (second.status = 0 ∧ t.Every (fun _ => True) WrittenWhole ∨
          second.status = 1 ∧ ¬t.Every (fun _ => True) WrittenWhole) := by
  intro first second
  refine ⟨by decide +kernel, by decide +kernel, ?_⟩
  exact (@canonMain_pipeline ⟨.rfc8259, 1, false⟩ ⟨.rfc8259, 1, true⟩ ⟨fun _ => true, []⟩
    ⟨fun _ => true, []⟩
    ⟨fun _ => true, []⟩ [ascii "--newline"] [ascii "--newline", ascii "--check"]
    ⟨[ascii "[2, 1]"], false, true, false, false⟩ ⟨[ascii "[2,1]\n"], false, true, false, false⟩
    ⟨100, true, [], []⟩ ⟨100, true, [], []⟩ [] [] [] [] [] [] (fun _ => rfl) (fun _ => rfl)
    (fun _ => rfl) le_rfl le_rfl (by decide +kernel)
    (by decide +kernel) rfl rfl rfl (by decide +kernel) (by decide +kernel)).2 rfl (by
    decide +kernel)

end MaelysJson
