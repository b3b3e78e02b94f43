import MaelysJson.RoundTrip.Agreement
import MaelysJson.Tool.Input
import MaelysJson.Writing.Streams

/-! A run of the tool, in terms of the language of its profile and of the value of its input:
which exit code it has and what it writes, for every input. -/
namespace MaelysJson

open Grammar Heap Run

/-! ### Arguments and limits -/

/-- The options are ones that a writer takes. -/
structure CanonOptions.Known (options : CanonOptions) : Prop where
  profile : options.profile ≠ .rfc8259LastWins
  flags : options.flags &&& ~~~knownFlags = 0

theorem known_or {flags flag : UInt32} (h : flags &&& ~~~knownFlags = 0)
    (hFlag : flag &&& ~~~knownFlags = 0) :
    (flags ||| flag) &&& ~~~knownFlags = 0 := by
  rw [← UInt32.toBitVec_inj] at h hFlag ⊢
  simp only [UInt32.toBitVec_and, UInt32.toBitVec_or] at h hFlag ⊢
  rw [BitVec.and_or_distrib_right, h, hFlag]
  rfl

theorem parseArguments_known {arguments : List Bytes} {options options' : CanonOptions}
    (hKnown : options.Known) (h : parseArguments arguments options = some options') :
    options'.Known := by
  induction arguments generalizing options with
  | nil =>
      cases h
      exact hKnown
  | cons argument arguments ih =>
      rw [parseArguments] at h
      split_ifs at h
      · refine ih ?_ h
        exact ⟨by simp, hKnown.flags⟩
      · refine ih ?_ h
        exact ⟨hKnown.profile, known_or hKnown.flags (by decide)⟩
      · refine ih ?_ h
        exact ⟨hKnown.profile, known_or hKnown.flags (by decide)⟩
      · refine ih ?_ h
        exact ⟨hKnown.profile, known_or hKnown.flags (by decide)⟩
      · refine ih ?_ h
        exact ⟨hKnown.profile, hKnown.flags⟩

theorem newline_flag (flags : UInt32) :
    flags &&& finalNewlineFlag = 0 ∨ flags &&& finalNewlineFlag = finalNewlineFlag := by
  have hBit : (flags &&& finalNewlineFlag).toNat = flags.toNat % 2 := by
    rw [UInt32.toNat_and]
    exact Nat.and_one_is_mod _
  rcases Nat.mod_two_eq_zero_or_one flags.toNat with hZero | hOne
  · exact Or.inl (UInt32.toNat_inj.mp (hBit.trans hZero))
  · exact Or.inr (UInt32.toNat_inj.mp (hBit.trans hOne))

theorem canonLimits_resolved : limitsResolve (some canonLimits) = .ok canonLimits := rfl

/-- The memory of a parse within the limits of the tool can be counted. -/
theorem canonLimits_bound {size : Nat} (hSize : size ≤ inputLimit) (profile : Profile) :
    ∃ bound, documentParseAllocationBound size profile (some canonLimits) = .ok bound := by
  have hCapacity : tokenCapacityFor size canonLimits ≤ 2 ^ 24 := by
    have hMaximum : canonLimits.maximumTokens = 2 ^ 24 := rfl
    rw [tokenCapacityFor]
    split_ifs <;> omega
  have hSlots : slotsFor (tokenCapacityFor size canonLimits / 2 + 1) ≤ 2 ^ 25 :=
    slotsFor_le (by decide) (by omega)
  rw [documentParseAllocationBound_eq canonLimits_resolved hSize, if_pos]
  · exact ⟨_, rfl⟩
  · rw [allocationSum_eq]
    simp only [sizeOfDocument, sizeOfToken, sizeOfSize, sizeMax, inputLimit] at hSize ⊢
    split_ifs <;> omega

/-! ### What a run means -/

variable {options : CanonOptions} {input : Bytes} {t : Json}

/-- The input is a text of the profile with this value, and within the limits of the tool. -/
def CanonOptions.Accepts (options : CanonOptions) (input : Bytes) (t : Json) : Prop :=
  Text options.profile input t ∧ Acceptable options.profile canonLimits t

/-- The exit code of a run with this input, and the bytes that it offers to its output. -/
inductive CanonMeaning (options : CanonOptions) (input : Bytes) : Nat → Option Bytes → Prop where
  | refused (hRefused : ∀ t, ¬options.Accepts input t) : CanonMeaning options input 2 none
  | canonical {t : Json} (hAccepts : options.Accepts input t) (hCheck : options.check = true)
      (hWhole : t.Every (fun _ => True) fun lexeme => WrittenWhole lexeme ∧ WholeFits lexeme)
      (hSame : input = outputOf (options.flags &&& finalNewlineFlag) t.copied.json) :
      CanonMeaning options input 0 none
  | other {t : Json} (hAccepts : options.Accepts input t) (hCheck : options.check = true)
      (hOther : ¬(t.Every (fun _ => True) (fun lexeme => WrittenWhole lexeme ∧ WholeFits lexeme) ∧
        input = outputOf (options.flags &&& finalNewlineFlag) t.copied.json)) :
        CanonMeaning options input 1 none
  | range {t : Json} (hAccepts : options.Accepts input t) (hCheck : options.check = false)
      (hUnfit : ¬t.Every (fun _ => True) WholeFits) : CanonMeaning options input 3 none
  | long {t : Json} (hAccepts : options.Accepts input t) (hCheck : options.check = false)
      (hFits : t.Every (fun _ => True) WholeFits)
      (hLong : inputLimit < (outputOf options.flags t.copied.json).length) :
      CanonMeaning options input 2 none
  | written {t : Json} (hAccepts : options.Accepts input t) (hCheck : options.check = false)
      (hFits : t.Every (fun _ => True) WholeFits)
      (hRoom : (outputOf options.flags t.copied.json).length ≤ inputLimit) :
      CanonMeaning options input 0 (some (outputOf options.flags t.copied.json))

/-- A run with this exit code that offers these bytes to a stream. -/
def CanonRun.Delivers (run : CanonRun) (status : Nat) (output : Option Bytes) (stdout : Stream) :
    Prop :=
  match output with
  | none => run.status = status ∧ run.stdout = stdout
  | some bytes =>
      run.status = (if bytes.length ≤ stdout.room ∧ stdout.flushes = true then status else 2) ∧
        run.stdout = stdout.given bytes

/-! ### Documents of the strict profiles -/

theorem writerProfile_strict {profile : Profile} (h : profile ≠ .rfc8259LastWins) :
    writerProfile profile = profile :=
  if_neg h

section

variable {document : Document} {profile : Profile} {limits : Limits} {bytes : Bytes}
  {flags : UInt32}

theorem Document.Represents.lastWins_eq (h : document.Represents profile limits bytes t)
    (hProfile : profile ≠ .rfc8259LastWins) : t.lastWins = t :=
  Tree.lastWins_of_uniqueKeys (h.acceptable.2.2 hProfile)

/-- A writer of the same profile and limits may take the value. -/
theorem Document.Represents.admitted_strict (h : document.Represents profile limits bytes t)
    (hProfile : profile ≠ .rfc8259LastWins) : t.copied.Admitted profile limits [] := by
  have hAdmitted :=
    h.admitted_of_room h.every h.size h.room.1 (t.lastWins.values_le_tokens.trans h.room.2)
  rwa [h.lastWins_eq hProfile, writerProfile_strict hProfile] at hAdmitted

/-- The check of a strict document compares its text with that of its copy. -/
theorem Document.Represents.isCanonical_iff (h : document.Represents profile limits bytes t)
    (hProfile : profile ≠ .rfc8259LastWins) (hFlags : flags = 0 ∨ flags = finalNewlineFlag) :
    ∃ answer, documentIsCanonical document flags = .ok answer ∧
      (answer = true ↔ t.Every (fun _ => True) (fun lexeme => WrittenWhole lexeme ∧
        WholeFits lexeme) ∧ bytes = outputOf flags t.copied.json) := by
  obtain ⟨answer, hAnswer, hIff⟩ := h.isCanonical hFlags
  have hAdmitted := h.admitted_strict hProfile
  have hSame := h.lastWins_eq hProfile
  refine ⟨answer, hAnswer, ?_⟩
  rw [hIff, hSame]
  constructor
  · rintro ⟨-, ⟨hOrdered, hNumbers⟩, hBytes⟩
    exact ⟨hNumbers, by rw [outputOf_ordered hOrdered hFlags, hBytes]⟩
  · rintro ⟨hNumbers, hBytes⟩
    obtain ⟨hUnique, hOrdered⟩ := @Document.Represents.ordered _ _ _ _ _ h limits flags
      (by rwa [hSame, writerProfile_strict hProfile]) (by rwa [hSame])
    rw [hSame] at hOrdered
    exact ⟨hUnique, ⟨hOrdered, hNumbers⟩, by rw [← outputOf_ordered hOrdered hFlags]; exact hBytes⟩

end

/-! ### A run -/

/-- A copy in the tool: out of range, too long, or given to the stream. -/
theorem canonCopy_delivers {heap : Heap} {document : Document} {stdout : Stream}
    (hKnown : options.Known) (hHeap : heap.Generous)
    (hDocument : document.Represents options.profile canonLimits input t) :
    (¬t.Every (fun _ => True) WholeFits ∧
      canonCopy heap options document stdout = (.errRange, stdout)) ∨
    (t.Every (fun _ => True) WholeFits ∧
      inputLimit < (outputOf options.flags t.copied.json).length ∧
      canonCopy heap options document stdout = (.errLimit, stdout)) ∨
    (t.Every (fun _ => True) WholeFits ∧
      (outputOf options.flags t.copied.json).length ≤ inputLimit ∧
      canonCopy heap options document stdout =
        (if (outputOf options.flags t.copied.json).length ≤ stdout.room ∧ stdout.flushes = true then
          .ok else .errIo, stdout.given (outputOf options.flags t.copied.json))) := by
  have hCreate := writerCreate_eq_ok.mpr ⟨canonLimits, canonLimits_resolved, hKnown.profile,
    hKnown.flags, hHeap.grants _, rfl, rfl⟩
  obtain ⟨hBuilds, hSetup⟩ := writerCreate_builds hHeap canonLimits_resolved hCreate
  generalize Writer.fresh options.profile canonLimits options.flags
    (heap.after (createRequests canonLimits)) = w
    at hCreate hBuilds hSetup
  have hCarries := hDocument.carries
  rw [hDocument.lastWins_eq hKnown.profile] at hCarries
  have hAdmitted := hDocument.admitted_strict hKnown.profile
  have hProfile : w.profile = options.profile := congrArg Prod.fst hSetup
  have hLimits : w.limits = canonLimits := congrArg (fun setup => setup.2.1) hSetup
  have hYields := writerValue_yields hBuilds hCarries
  rw [hProfile, hLimits] at hYields
  have hValue := @Draft.copyAll_value options.profile canonLimits .empty (.complete t.copied) [] t
    rfl (Nat.zero_le _)
  simp only [canonCopy, hCreate]
  by_cases hFits : t.Every (fun _ => True) WholeFits
  · right
    rw [hValue.mpr ⟨hFits, hAdmitted, rfl⟩] at hYields
    obtain ⟨u, hRun, hComplete, hKept⟩ := hYields
    have hFlags : u.flags = options.flags := congrArg (fun setup => setup.2.2) (hKept.trans hSetup)
    have hMaximum : u.limits = canonLimits := congrArg (fun setup => setup.2.1) (hKept.trans hSetup)
    have hBytes : u.limits.maximumBytes < sizeMax / 2 := by
      rw [hMaximum]
      decide
    simp only [hRun]
    by_cases hLong : inputLimit < (outputOf options.flags t.copied.json).length
    · obtain ⟨v, hFinish⟩ := writerFinish_exceeds hComplete hBytes hAdmitted.unique hAdmitted.valid
        (by rw [hMaximum, hFlags]; exact hLong)
      refine Or.inl ⟨hFits, hLong, ?_⟩
      simp only [writerFinishFile, hFinish, Option.getD_some]
    · obtain ⟨heap', hFinish⟩ := writerFinish_fits hComplete hBytes hAdmitted.unique hAdmitted.valid
        (by rw [hMaximum, hFlags]; exact not_lt.mp hLong)
      rw [hFlags] at hFinish
      refine Or.inr ⟨hFits, not_lt.mp hLong, ?_⟩
      rcases writerFinishFile_gives u stdout with
        ⟨result, hCall, -⟩ | ⟨bytes, hCall, hResult, hStream⟩
      · rw [WriterCall.call, WriterCall.operation, bind_of_ok hFinish] at hCall
        cases hCall
      · rw [WriterCall.call, WriterCall.operation, bind_of_ok hFinish] at hCall
        obtain rfl : outputOf options.flags t.copied.json = bytes :=
          Option.some.inj (congrArg Returned.output hCall)
        rw [hResult, hStream, Option.getD_some]
  · left
    have hRange := (Draft.copyAll_of_run
      (Draft.run_complete.mpr ⟨Tree.map_copied_steps t, hAdmitted⟩)).resolve_left
      fun hOk => hFits (hValue.mp hOk).1
    rw [hRange] at hYields
    obtain ⟨u, hRun⟩ := hYields
    simp only [hRun]
    exact ⟨hFits, trivial⟩

/-- The texts that a run accepts are those of the language, and a run has a meaning. -/
theorem canonRun_means {heap : Heap} {stdin : InputStream} (hKnown : options.Known)
    (hHeap : heap.Generous) (hFilling : stdin.Filling) (stdout : Stream) (message pointer : Bytes) :
    ∃ status output, CanonMeaning options (stdin.contents.take inputLimit) status output ∧
      (canonRun heap options stdin stdout message pointer).Delivers status output stdout := by
  obtain ⟨asked, hRead⟩ := readStdin_reads hHeap hFilling
  generalize hInput : stdin.contents.take inputLimit = input at hRead ⊢
  have hSize : input.length ≤ inputLimit := hInput ▸ List.length_take_le _ _
  obtain ⟨bound, hBound⟩ := canonLimits_bound hSize options.profile
  have hAfter := hHeap.after asked
  have hAccepts := documentParse_accepts hAfter canonLimits_resolved hSize hBound true
  simp only [canonRun, hRead]
  cases hDocument :
    (documentParse (heap.after asked) (.buffer input) options.profile (some canonLimits)
      true).document with
  | none =>
      refine ⟨2, none, .refused fun t hAccepted => ?_, ?_⟩
      · obtain ⟨document, heap', survivor, hParse, -⟩ := documentParse_ok hAfter
          canonLimits_resolved hSize hBound true hAccepted.1 hAccepted.2
        rw [hParse] at hDocument
        cases hDocument
      · split
        · next h => cases h
        · exact ⟨rfl, rfl⟩
  | some document =>
      obtain ⟨limits, t, _, hLimits, -, hRepresents⟩ := documentParse_represents hDocument
      obtain rfl := Except.ok.inj (canonLimits_resolved.symm.trans hLimits)
      have hAccepted : options.Accepts input t := ⟨hRepresents.text, hRepresents.acceptable⟩
      obtain ⟨asked', hHeap', -⟩ := @documentParse_requests options.profile _ _ canonLimits_resolved
        (heap.after asked) (.buffer input) true
      rw [hAccepts.mpr ⟨t, hAccepted⟩]
      simp only
      cases hCheck : options.check with
      | true =>
          obtain ⟨answer, hAnswer, hIff⟩ :=
            hRepresents.isCanonical_iff hKnown.profile (newline_flag options.flags)
          simp only [if_true, hAnswer]
          cases answer with
          | true =>
              obtain ⟨hWhole, hSame⟩ := hIff.mp rfl
              exact ⟨0, none, .canonical hAccepted hCheck hWhole hSame, rfl, rfl⟩
          | false =>
              exact ⟨1, none, .other hAccepted hCheck fun h =>
                absurd (hIff.mpr h) (by simp), rfl, rfl⟩
      | false =>
          have hGenerous : (documentParse (heap.after asked) (.buffer input) options.profile
              (some canonLimits) true).heap.Generous := by
            rw [hHeap']
            exact hAfter.after asked'
          simp only [Bool.false_eq_true, if_false]
          rcases @canonCopy_delivers _ _ _ _ _ stdout hKnown hGenerous hRepresents with
            ⟨hUnfit, hCopy⟩ | ⟨hFits, hLong, hCopy⟩ | ⟨hFits, hRoom, hCopy⟩
          · refine ⟨3, none, .range hAccepted hCheck hUnfit, ?_⟩
            rw [hCopy]
            simp [CanonRun.Delivers]
          · refine ⟨2, none, .long hAccepted hCheck hFits hLong, ?_⟩
            rw [hCopy]
            simp [CanonRun.Delivers]
          · refine ⟨0, some _, .written hAccepted hCheck hFits hRoom, ?_⟩
            rw [hCopy]
            by_cases hTaken : (outputOf options.flags t.copied.json).length ≤ stdout.room ∧
              stdout.flushes = true
            · simp [CanonRun.Delivers, hTaken]
            · simp [CanonRun.Delivers, hTaken]

/-- The meaning of a run is one. -/
theorem CanonMeaning.unique {status status' : Nat} {output output' : Option Bytes}
    (h : CanonMeaning options input status output)
    (h' : CanonMeaning options input status' output') : status' = status ∧ output' = output := by
  have hSame {t t' : Json} (hAccepts : options.Accepts input t)
    (hAccepts' : options.Accepts input t') : t' = t :=
    hAccepts'.1.unique hAccepts.1
  cases h with
  | refused hRefused =>
      cases h' with
      | refused => exact ⟨rfl, rfl⟩
      | _ hAccepts' => exact absurd hAccepts' (hRefused _)
  | canonical hAccepts hCheck hWhole hBytes =>
      cases h' with
      | refused hRefused => exact absurd hAccepts (hRefused _)
      | canonical => exact ⟨rfl, rfl⟩
      | other hAccepts' _ hOther =>
          obtain rfl := hSame hAccepts hAccepts'
          exact absurd ⟨hWhole, hBytes⟩ hOther
      | _ _ hCheck' => exact absurd (hCheck.symm.trans hCheck') (by simp)
  | other hAccepts hCheck hOther =>
      cases h' with
      | refused hRefused => exact absurd hAccepts (hRefused _)
      | canonical hAccepts' _ hWhole hBytes =>
          obtain rfl := hSame hAccepts hAccepts'
          exact absurd ⟨hWhole, hBytes⟩ hOther
      | other => exact ⟨rfl, rfl⟩
      | _ _ hCheck' => exact absurd (hCheck.symm.trans hCheck') (by simp)
  | range hAccepts hCheck hUnfit =>
      cases h' with
      | refused hRefused => exact absurd hAccepts (hRefused _)
      | range => exact ⟨rfl, rfl⟩
      | canonical _ hCheck' => exact absurd (hCheck.symm.trans hCheck') (by simp)
      | other _ hCheck' => exact absurd (hCheck.symm.trans hCheck') (by simp)
      | _ hAccepts' _ hFits =>
          obtain rfl := hSame hAccepts hAccepts'
          exact absurd hFits hUnfit
  | long hAccepts hCheck hFits hLong =>
      cases h' with
      | refused => exact ⟨rfl, rfl⟩
      | canonical _ hCheck' => exact absurd (hCheck.symm.trans hCheck') (by simp)
      | other _ hCheck' => exact absurd (hCheck.symm.trans hCheck') (by simp)
      | range hAccepts' _ hUnfit =>
          obtain rfl := hSame hAccepts hAccepts'
          exact absurd hFits hUnfit
      | long => exact ⟨rfl, rfl⟩
      | written hAccepts' _ _ hRoom =>
          obtain rfl := hSame hAccepts hAccepts'
          exact absurd hLong (not_lt.mpr hRoom)
  | written hAccepts hCheck hFits hRoom =>
      cases h' with
      | refused hRefused => exact absurd hAccepts (hRefused _)
      | canonical _ hCheck' => exact absurd (hCheck.symm.trans hCheck') (by simp)
      | other _ hCheck' => exact absurd (hCheck.symm.trans hCheck') (by simp)
      | range hAccepts' _ hUnfit =>
          obtain rfl := hSame hAccepts hAccepts'
          exact absurd hFits hUnfit
      | long hAccepts' _ _ hLong =>
          obtain rfl := hSame hAccepts hAccepts'
          exact absurd hLong (not_lt.mpr hRoom)
      | written hAccepts' =>
          obtain rfl := hSame hAccepts hAccepts'
          exact ⟨rfl, rfl⟩

/-- For every input, all that the tool does to its output and its exit code: it refuses its
arguments, or it does what the input means under them. -/
theorem canonMain_means {heap : Heap} {arguments : List Bytes} {stdin : InputStream}
    (hHeap : heap.Generous) (hFilling : stdin.Filling) (stdout : Stream) (message pointer : Bytes) :
    let run := canonMain heap arguments stdin stdout message pointer
    (parseArguments arguments ⟨.rfc8259, 0, false⟩ = none → run.status = 4 ∧ run.stdout = stdout) ∧
      ∀ options, parseArguments arguments ⟨.rfc8259, 0, false⟩ = some options →
        ∃ status output, CanonMeaning options (stdin.contents.take inputLimit) status output ∧
          run.Delivers status output stdout := by
  intro run
  refine ⟨fun hNone => ?_, fun options hSome => ?_⟩
  · simp only [run, canonMain, hNone, true_and]
  · have hKnown : options.Known := parseArguments_known ⟨by simp, by decide⟩ hSome
    simp only [run, canonMain, hSome]
    exact canonRun_means hKnown hHeap hFilling stdout message pointer

/-- The value `0.5` with `--newline`: it is written with a line feed after it. -/
theorem canonMain_means_half :
    let run := canonMain ⟨fun _ => true, []⟩ [ascii "--newline"]
      ⟨[ascii " 0.5"], false, true, false, false⟩ ⟨100, true, [], []⟩ [] []
    run.status = 0 ∧ run.stdout.flushed = ascii "0.5\n" ∧ ∃ status output,
      CanonMeaning ⟨.rfc8259, 1, false⟩ (ascii " 0.5") status output ∧
      run.Delivers status output ⟨100, true, [], []⟩ := by
  intro run
  refine ⟨by decide +kernel, by decide +kernel, ?_⟩
  exact (@canonMain_means ⟨fun _ => true, []⟩ [ascii "--newline"]
    ⟨[ascii " 0.5"], false, true, false, false⟩ (fun _ => rfl)
    le_rfl ⟨100, true, [], []⟩ [] []).2 ⟨.rfc8259, 1, false⟩ (by decide +kernel)

end MaelysJson
