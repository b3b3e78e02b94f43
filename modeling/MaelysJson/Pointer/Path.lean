import MaelysJson.Pointer.Emission
import MaelysJson.Pointer.Scan
import MaelysJson.Reading.Limits

/-! The rescan next to the reader: while the reader goes on, the scan has one frame for
every open container, and where the reader reports a fault the scan stops inside the
containers on the path of the fault. -/
namespace MaelysJson

open Grammar Run

theorem framesPath_cons {bytes : Bytes} {frame : Frame} {step : Step}
    (h : frame.step bytes = some step) (frames : List Frame) :
    framesPath bytes (frame :: frames) = step :: framesPath bytes frames := by
  simp only [framesPath, h]

theorem framesPath_before_value {bytes : Bytes} {frame : Frame} (hObject : frame.isObject = true)
    (hValue : frame.inValue = false) (frames : List Frame) :
    framesPath bytes (frame :: frames) = [] := by
  have hStep : frame.step bytes = none := by
    rw [Frame.step, if_pos hObject, hValue, Bool.and_false]
    rfl
  simp only [framesPath, hStep]

/-- A value may come next: the innermost container has a current item. -/
def Settled (bytes : Bytes) : List Frame → Prop
  | [] => True
  | top :: _ => ∃ step, top.step bytes = some step

theorem Settled.literal {bytes : Bytes} {frames : List Frame} (h : Settled bytes frames)
    (opening stop : Nat) :
    Scanner.updateTop frames (Frame.literal bytes opening stop) = frames := by
  cases frames with
  | nil => rfl
  | cons top below =>
      obtain ⟨step, hStep⟩ := h
      have hTop : ¬(top.isObject && !top.inValue) = true := by
        rw [Frame.step] at hStep
        cases hObject : top.isObject
        · exact Bool.false_ne_true
        · cases hValue : top.inValue
          · rw [hObject, hValue, Bool.and_false] at hStep
            cases hStep
          · decide
      rw [Scanner.updateTop, Frame.literal, if_neg hTop]

theorem decodeString_bad_lt {bytes : Bytes} {profile : Profile} {code : Result} {bad : Nat}
    (h : decodeString bytes profile = .error (code, bad)) : bad < bytes.length := by
  by_cases hProfile : profile = .contractAscii
  · subst hProfile
    have hFrom (rounds input : Nat) (out : Bytes)
        (h : decodeStringFrom bytes .contractAscii rounds input out = .error (code, bad)) :
        bad < bytes.length := by
      induction rounds generalizing input out with
      | zero => cases h
      | succ rounds ih =>
          rw [decodeStringFrom] at h
          by_cases hEnd : input < bytes.length
          · simp only [if_pos hEnd, if_true] at h
            split_ifs at h
            · cases h
              exact hEnd
            · exact ih _ _ h
          · rw [if_neg hEnd] at h
            cases h
    exact hFrom _ _ _ h
  · have hSpec := decodeString_spec bytes hProfile
    rw [h] at hSpec
    exact hSpec.lt

/-- Whatever the profile, the text of a literal is what the scan decodes. -/
theorem Grammar.Content.decodes {profile : Profile} {content text : Bytes}
    (h : Content profile content text) :
    decodeString content .rfc8259 = .ok text := by
  have hContent : Content .rfc8259 content text := by
    cases profile with
    | rfc8259 => exact h
    | contractAscii => exact h.relax
    | rfc8259LastWins => exact (content_lastWins content text).mp h
  exact ((content_iff .rfc8259 content text).mp hContent).2

namespace Reading

/-- The scan runs along with a reading. With the value it has frames as `after` tells;
with a fault it stops inside containers above `below`, on the path of the fault. -/
def Traced (r : Reading) {α : Type} (below frames : List Frame) (after : α → List Frame → Prop)
    (read : ReadM α) (place : Place) : Prop :=
  r.Advances 0 read place ∧
    match read place with
    | .ok a next =>
        ∃ frames', after a frames' ∧ Scans r.bytes ⟨place.offset, frames⟩ ⟨next.offset, frames'⟩
    | .error fault _ => fault.offset ≤ r.bytes.length ∧ ∃ inner offset,
        Stops r.bytes fault.offset ⟨place.offset, frames⟩ ⟨offset, inner ++ below⟩ ∧
          framesPath r.bytes inner.reverse = fault.path

variable {r : Reading} {place : Place}

namespace Traced

variable {α β : Type} {below frames : List Frame} {after : α → List Frame → Prop}

theorem ok {read : ReadM α} {a : α} {next : Place} {frames' : List Frame}
    (hAdvances : r.Advances 0 read place) (hRead : read place = .ok a next)
    (hAfter : after a frames')
    (hScans : Scans r.bytes ⟨place.offset, frames⟩ ⟨next.offset, frames'⟩) :
    r.Traced below frames after read place := by
  refine ⟨hAdvances, ?_⟩
  rw [hRead]
  exact ⟨frames', hAfter, hScans⟩

theorem error {read : ReadM α} {fault : Fault} {next : Place} {inner : List Frame} {offset : Nat}
    (hAdvances : r.Advances 0 read place) (hRead : read place = .error fault next)
    (hLength : fault.offset ≤ r.bytes.length)
    (hStops : Stops r.bytes fault.offset ⟨place.offset, frames⟩ ⟨offset, inner ++ below⟩)
    (hPath : framesPath r.bytes inner.reverse = fault.path) :
    r.Traced below frames after read place := by
  refine ⟨hAdvances, ?_⟩
  rw [hRead]
  exact ⟨hLength, inner, offset, hStops, hPath⟩

theorem pure {a : α} (hPlace : place.offset ≤ r.bytes.length) (hAfter : after a frames) :
    r.Traced below frames after (pure a) place :=
  .ok (.pure a hPlace) rfl hAfter (.refl _)

/-- A fault where the reading begins. -/
theorem here (inner : List Frame) {read : ReadM α} {code : Result} {next : Place}
    (hAdvances : r.Advances 0 read place)
    (hRead : read place = .error ⟨code, place.offset, []⟩ next)
    (hPlace : place.offset ≤ r.bytes.length) (hPath : framesPath r.bytes inner.reverse = []) :
    r.Traced below (inner ++ below) after read place :=
  .error hAdvances hRead hPlace (.stop le_rfl) hPath

theorem bind {mid : α → List Frame → Prop} {after : β → List Frame → Prop} {x : ReadM α}
    {f : α → ReadM β} (hx : r.Traced below frames mid x place)
    (hf : ∀ a next frames', x place = .ok a next → mid a frames' → place.offset ≤ next.offset →
      next.offset ≤ r.bytes.length → r.Traced below frames' after (f a) next) :
    r.Traced below frames after (x >>= f) place := by
  obtain ⟨hAdvances, hRun⟩ := hx
  have hNext (a : α) (next : Place) (hRead : x place = .ok a next) :
      ∃ frames', Scans r.bytes ⟨place.offset, frames⟩ ⟨next.offset, frames'⟩ ∧
        r.Traced below frames' after (f a) next := by
    rw [hRead] at hRun
    obtain ⟨frames', hMid, hScans⟩ := hRun
    obtain ⟨hLe, hLength⟩ := hAdvances.ok hRead
    exact ⟨frames', hScans, hf a next frames' hRead hMid hLe hLength⟩
  refine ⟨hAdvances.bind 0 fun a next hRead _ _ => ?_, ?_⟩
  · obtain ⟨frames', -, hTraced⟩ := hNext a next hRead
    exact hTraced.1
  · rw [bind_eq]
    cases hRead : x place with
    | error fault next =>
        rw [hRead] at hRun
        exact hRun
    | ok a next =>
        obtain ⟨frames', hScans, hTraced⟩ := hNext a next hRead
        have hRest := hTraced.2
        simp only
        cases hAfter : f a next with
        | ok b last =>
            rw [hAfter] at hRest
            obtain ⟨frames'', hEnd, hScans'⟩ := hRest
            exact ⟨frames'', hEnd, hScans.trans hScans'⟩
        | error fault last =>
            rw [hAfter] at hRest
            obtain ⟨hLength, inner, offset, hStops, hPath⟩ := hRest
            exact ⟨hLength, inner, offset, hScans.stops (hTraced.1.error hAfter).1 hStops, hPath⟩

/-- A fault below a step lies inside the container whose current item it is. -/
theorem within {read : ReadM α} {top : Frame} {step : Step} (hStep : top.step r.bytes = some step)
    (h : r.Traced (top :: below) frames after read place) :
    r.Traced below frames after (Reading.within step read) place := by
  refine ⟨h.1.within step, ?_⟩
  have hRun := h.2
  rw [Reading.within]
  cases hRead : read place with
  | ok a next =>
      rw [hRead] at hRun
      exact hRun
  | error fault next =>
      rw [hRead] at hRun
      obtain ⟨hLength, inner, offset, hStops, hPath⟩ := hRun
      refine ⟨hLength, inner ++ [top], offset, ?_, ?_⟩
      · rw [List.append_assoc]
        exact hStops
      · rw [List.reverse_append, List.reverse_singleton, List.singleton_append,
          framesPath_cons hStep, hPath]

theorem mono {after' : α → List Frame → Prop} {read : ReadM α}
    (h : r.Traced below frames after read place)
    (hAfter : ∀ a frames', after a frames' → after' a frames') :
    r.Traced below frames after' read place := by
  refine ⟨h.1, ?_⟩
  have hRun := h.2
  cases hRead : read place with
  | ok a next =>
      rw [hRead] at hRun
      obtain ⟨frames', hFrames, hScans⟩ := hRun
      exact ⟨frames', hAfter a frames' hFrames, hScans⟩
  | error fault next =>
      rw [hRead] at hRun
      exact hRun

theorem congr {read read' : ReadM α} (hRead : read place = read' place)
    (h : r.Traced below frames after read' place) :
    r.Traced below frames after read place := by
  rw [Traced, Advances, hRead]
  exact h

end Traced

/-! ### Tokens of the text -/

section

variable {below frames : List Frame}

theorem readSpace_traced (hPlace : place.offset ≤ r.bytes.length) :
    r.Traced below frames (fun _ frames' => frames' = frames) r.readSpace place :=
  .ok (readSpace_advances hPlace) rfl rfl (.space place.offset frames)

/-- What the scan does with a literal is the same whether or not the reader accepts it. -/
theorem readString_traced {inner inner' : List Frame} (hPlace : place.offset ≤ r.bytes.length)
    (hInner : framesPath r.bytes inner.reverse = [])
    (hLiteral : Scanner.updateTop (inner ++ below)
      (Frame.literal r.bytes place.offset (skipString r.bytes place.offset)) = inner' ++ below)
    (hInner' : framesPath r.bytes inner'.reverse = []) :
    r.Traced below (inner ++ below)
      (fun literal frames' => frames' = inner' ++ below ∧ ∃ stop, place.offset < stop ∧
        byteAt r.bytes stop = 0x22 ∧ skipString r.bytes place.offset = stop + 1 ∧
        decodeString (r.content (place.offset + 1) stop) .rfc8259 = .ok literal.text) r.readString
          place := by
  have hAdvances := (readString_advances hPlace).mono (Nat.zero_le 1)
  have hStep (hQuote : r.current place = 0x22) :
      scanStep r.bytes ⟨place.offset, inner ++ below⟩ =
        ⟨skipString r.bytes place.offset, inner' ++ below⟩ := by
    rw [← hLiteral]
    exact scanStep_quote hQuote
  cases hRead : r.readString place with
  | ok literal next =>
      obtain ⟨content, hContent, hStands, -, -⟩ := readString_sound hRead
      have hDrop := hStands.1
      rw [quoted, List.append_assoc, List.append_assoc] at hDrop
      have hQuote := byteAt_of_drop hDrop
      have hInside := lt_length_of_drop hDrop
      have hBody : r.bytes.drop (place.offset + 1) = content ++ 0x22 :: r.bytes.drop next.offset :=
        drop_succ_of_drop hDrop
      have hScan := @scanStringFrom_complete r.profile _ _ _ (r.bytes.length + 1) _
        ((content_iff r.profile content literal.text).mp hContent).1 hBody (by
          have hLength := le_length_of_drop hInside hBody
          omega)
      obtain ⟨hSkip, hLt, -, hClosing⟩ := skipString_closed hScan
      have hNext : next.offset = skipString r.bytes place.offset := by
        rw [hStands.2, hSkip, quoted]
        simp only [List.length_append, List.length_singleton]
        omega
      refine .ok hAdvances hRead ⟨rfl, place.offset + 1 + content.length, hLt, hClosing,
        hSkip, ?_⟩ ?_
      · rw [Reading.content, hBody, Nat.add_sub_cancel_left, List.take_left]
        exact hContent.decodes
      · apply Scans.next hInside
        rw [hStep hQuote, hNext]
        exact .refl _
  | error fault next =>
      have hInside (hQuote : ¬(r.atEnd place = true ∨ r.current place ≠ 0x22))
          (hLength : fault.offset ≤ r.bytes.length) (hOffset : place.offset < fault.offset)
          (hSkip : fault.offset ≤ skipString r.bytes place.offset) (hPath : fault.path = []) :
          r.Traced below (inner ++ below)
            (fun literal frames' => frames' = inner' ++ below ∧ ∃ stop, place.offset < stop ∧
              byteAt r.bytes stop = 0x22 ∧ skipString r.bytes place.offset = stop + 1 ∧
              decodeString (r.content (place.offset + 1) stop) .rfc8259 = .ok literal.text)
                r.readString place := by
        rw [not_or, not_not] at hQuote
        have hStops : Stops r.bytes fault.offset (scanStep r.bytes ⟨place.offset, inner ++ below⟩)
            ⟨skipString r.bytes place.offset, inner' ++ below⟩ := by
          rw [hStep hQuote.2]
          exact .stop hSkip
        exact .error hAdvances hRead hLength (.next hOffset hStops) (hInner'.trans hPath.symm)
      have hFault := hRead
      simp only [readString] at hFault
      by_cases hQuote : r.atEnd place = true ∨ r.current place ≠ 0x22
      · rw [if_pos hQuote] at hFault
        cases hFault
        exact .here inner hAdvances hRead hPlace hInner
      rw [if_neg hQuote] at hFault
      cases hScan : scanStringFrom r.profile r.bytes (r.bytes.length + 1) (place.offset + 1) with
      | refused offset =>
          rw [hScan] at hFault
          cases hFault
          obtain ⟨hSkip, hEnd⟩ := skipString_refused hScan
          exact hInside hQuote hEnd.le (scanStringFrom_refused hScan) hSkip rfl
      | unterminated offset =>
          rw [hScan] at hFault
          cases hFault
          exact .here inner hAdvances hRead hPlace hInner
      | closed stop =>
          obtain ⟨hSkip, hLt, hEnd, -⟩ := skipString_closed hScan
          simp only [hScan] at hFault
          by_cases hRoom : place.count ≥ r.capacity
          · rw [if_pos hRoom] at hFault
            cases hFault
            exact hInside hQuote (Nat.succ_le_of_lt (hLt.trans hEnd)) (Nat.lt_succ_self _)
              (by rw [hSkip]; exact Nat.succ_le_succ hLt.le) rfl
          rw [if_neg hRoom] at hFault
          cases hDecode : decodeString (r.content (place.offset + 1) stop) r.profile with
          | ok text =>
              rw [hDecode] at hFault
              cases hFault
          | error bad =>
              obtain ⟨code, bad⟩ := bad
              rw [hDecode] at hFault
              cases hFault
              have hBad := decodeString_bad_lt hDecode
              rw [Reading.content, List.length_take] at hBad
              exact hInside hQuote (by simp only; omega) (by simp only; omega)
                (by simp only; omega) rfl

/-- A string in the place of a value leaves the frames alone. -/
theorem readString_settled (hPlace : place.offset ≤ r.bytes.length)
    (hSettled : Settled r.bytes frames) :
    r.Traced frames frames (fun _ frames' => frames' = frames) r.readString place :=
  (@readString_traced r place frames [] [] hPlace rfl (hSettled.literal _ _) rfl).mono fun _ _ h =>
    h.1

/-- The frame of an object after a key: its text is known, its value has not begun. -/
def Keyed (bytes : Bytes) (text : Bytes) (frame : Frame) : Prop :=
  frame.isObject = true ∧ frame.hasKey = true ∧ frame.inValue = false ∧ frame.keyText bytes = text

theorem Keyed.literal {frame : Frame} {opening stop : Nat} {text : Bytes}
    (hObject : frame.isObject = true) (hValue : frame.inValue = false) (hLt : opening < stop)
    (hClosing : byteAt r.bytes stop = 0x22)
    (hDecode : decodeString (r.content (opening + 1) stop) .rfc8259 = .ok text) :
    Keyed r.bytes text (frame.literal r.bytes opening (stop + 1)) := by
  have hEnd : stop + 1 > opening + 1 ∧ byteAt r.bytes (stop + 1 - 1) = 0x22 ∧
    stop + 1 - 1 > opening :=
    ⟨Nat.succ_lt_succ hLt, hClosing, hLt⟩
  have hFrame : frame.literal r.bytes opening (stop + 1) =
      { frame with keyStart := opening + 1, keyEnd := stop, hasKey := true } := by
    rw [Frame.literal, if_pos (by rw [hObject, hValue]; rfl), if_pos hEnd, Nat.add_sub_cancel]
  rw [hFrame]
  refine ⟨hObject, rfl, hValue, ?_⟩
  rw [Reading.content] at hDecode
  simp only [Frame.keyText, hDecode]

theorem readKey_traced {frame : Frame} (hPlace : place.offset ≤ r.bytes.length)
    (hObject : frame.isObject = true) (hValue : frame.inValue = false) (seen : List Bytes) :
    r.Traced below (frame :: below)
      (fun key frames' => ∃ frame', frames' = frame' :: below ∧ Keyed r.bytes key.text frame')
      (r.readKey seen) place := by
  have hLiteral : (frame.literal r.bytes place.offset (skipString r.bytes place.offset)).isObject =
      true ∧
      (frame.literal r.bytes place.offset (skipString r.bytes place.offset)).inValue = false := by
    rw [Frame.literal, hObject, hValue]
    exact ⟨rfl, rfl⟩
  have hString := @readString_traced r place below [frame]
    [frame.literal r.bytes place.offset (skipString r.bytes place.offset)] hPlace
    (framesPath_before_value hObject hValue []) rfl
    (framesPath_before_value hLiteral.1 hLiteral.2 [])
  have hAdvances := (readKey_advances hPlace seen).mono (Nat.zero_le 1)
  have hRun := hString.2
  cases hRead : r.readString place with
  | error fault next =>
      have hKey : r.readKey seen place = r.readString place := by
        rw [readKey, hRead]
      rw [hRead] at hRun
      obtain ⟨hLength, inner, offset, hStops, hPath⟩ := hRun
      exact .error hAdvances (hKey.trans hRead) hLength hStops hPath
  | ok key next =>
      rw [hRead] at hRun
      obtain ⟨frames', ⟨hFrames, stop, hLt, hClosing, hSkip, hDecode⟩, hScans⟩ := hRun
      by_cases hDuplicate : r.profile ≠ .rfc8259LastWins ∧ key.text ∈ seen
      · have hKey : r.readKey seen place = .error ⟨.errDuplicateKey, place.offset, []⟩ place := by
          simp only [readKey, hRead]
          exact if_pos hDuplicate
        exact .here [frame] hAdvances hKey hPlace (framesPath_before_value hObject hValue [])
      · have hKey : r.readKey seen place = .ok key next := by
          simp only [readKey, hRead]
          exact if_neg hDuplicate
        apply Traced.ok hAdvances hKey _ hScans
        refine ⟨_, hFrames, ?_⟩
        rw [hSkip]
        exact .literal hObject hValue hLt hClosing hDecode

/-- The colon after a key settles the frame of its object. -/
theorem readColon_traced {frame : Frame} {text : Bytes} (hPlace : place.offset ≤ r.bytes.length)
    (hKeyed : Keyed r.bytes text frame) :
    r.Traced below (frame :: below)
      (fun _ frames' => ∃ frame', frames' = frame' :: below ∧ frame'.isObject = true ∧
        frame'.step r.bytes = some (.key text)) (r.readByte 0x3a) place := by
  obtain ⟨hObject, hKey, hValue, hText⟩ := hKeyed
  have hAdvances := (@readByte_advances r place 0x3a).mono (Nat.zero_le 1)
  by_cases hByte : r.atEnd place = true ∨ r.current place ≠ 0x3a
  · have hRead : r.readByte 0x3a place = .error ⟨.errSyntax, place.offset, []⟩ place := if_pos hByte
    exact .here [frame] hAdvances hRead hPlace (framesPath_before_value hObject hValue [])
  · have hRead : r.readByte 0x3a place = .ok () { place with offset := place.offset + 1 } :=
      if_neg hByte
    rw [not_or, not_not] at hByte
    have hFrame : frame.colon = { frame with inValue := true } := by
      rw [Frame.colon, hObject, hKey]
      rfl
    have hScans : Scans r.bytes ⟨place.offset, frame :: below⟩
        ⟨place.offset + 1, frame.colon :: below⟩ := by
      apply Scans.next (show place.offset < r.bytes.length from lt_of_not_atEnd hByte.1)
      rw [@scanStep_colon _ ⟨place.offset, frame :: below⟩ hByte.2]
      exact .refl _
    refine .ok hAdvances hRead ⟨frame.colon, rfl, ?_, ?_⟩ hScans
    · rw [hFrame]
      exact hObject
    · rw [hFrame, Frame.step, if_pos hObject, if_pos (by rw [hKey]; rfl), ← hText]
      rfl

/-- A delimiter ends the current item; the closing one ends the container with it. -/
theorem readDelimiter_traced {top : Frame} {closing : UInt8}
    (hClosing : closing = 0x7d ∨ closing = 0x5d) (hPlace : place.offset ≤ r.bytes.length) :
    r.Traced (top :: below) (top :: below)
      (fun closed frames' => frames' = if closed then below else top.comma :: below)
      (r.readDelimiter closing) place := by
  apply (readSpace_traced hPlace).bind
  rintro _ next _ - rfl - hNext
  apply Traced.congr (get_bind _ next)
  by_cases hEnd : r.atEnd next = true
  · rw [if_pos hEnd]
    exact .here [] (.refuse le_rfl (Or.inl rfl)) rfl hNext rfl
  have hInside : next.offset < r.bytes.length := lt_of_not_atEnd hEnd
  rw [if_neg hEnd]
  by_cases hByte : r.current next = closing
  · rw [if_pos hByte]
    have hScans : Scans r.bytes ⟨next.offset, top :: below⟩ ⟨next.offset + 1, below⟩ := by
      apply Scans.next hInside
      rw [@scanStep_closing _ ⟨next.offset, top :: below⟩ _ hByte hClosing]
      exact .refl _
    exact @Traced.ok _ _ _ _ _ _ _ _ ⟨next.offset + 1, next.count⟩ _ ⟨Nat.le_succ _, hInside⟩
      rfl rfl hScans
  rw [if_neg hByte]
  by_cases hComma : r.current next = 0x2c
  · rw [if_pos hComma]
    have hScans : Scans r.bytes ⟨next.offset, top :: below⟩
        ⟨next.offset + 1, top.comma :: below⟩ := by
      apply Scans.next hInside
      rw [@scanStep_comma _ ⟨next.offset, top :: below⟩ hComma]
      exact .refl _
    have hAdvance : r.Traced (top :: below) (top :: below)
        (fun _ frames' => frames' = top.comma :: below) (advance (next.offset + 1)) next :=
      .ok ⟨Nat.le_succ _, hInside⟩ rfl rfl hScans
    apply hAdvance.bind
    rintro _ after _ - rfl - hAfter
    apply (readSpace_traced hAfter).bind
    rintro _ last _ - rfl - hLast
    exact .pure hLast rfl
  · rw [if_neg hComma]
    exact .here [] (.refuse le_rfl (Or.inl rfl)) rfl hNext rfl

theorem readEmpty_traced {top : Frame} {closing : UInt8}
    (hClosing : closing = 0x7d ∨ closing = 0x5d) (hPlace : place.offset ≤ r.bytes.length) :
    r.Traced frames (top :: below) (fun closed frames' => frames' = if closed then below else
      top :: below) (r.readEmpty closing) place := by
  apply (readSpace_traced hPlace).bind
  rintro _ next _ - rfl - hNext
  apply Traced.congr (get_bind _ next)
  by_cases hByte : ¬r.atEnd next = true ∧ r.current next = closing
  · rw [if_pos hByte]
    have hInside : next.offset < r.bytes.length := lt_of_not_atEnd hByte.1
    have hScans : Scans r.bytes ⟨next.offset, top :: below⟩ ⟨next.offset + 1, below⟩ := by
      apply Scans.next hInside
      rw [@scanStep_closing _ ⟨next.offset, top :: below⟩ _ hByte.2 hClosing]
      exact .refl _
    exact @Traced.ok _ _ _ _ _ _ _ _ ⟨next.offset + 1, next.count⟩ _ ⟨Nat.le_succ _, hInside⟩
      rfl rfl hScans
  · rw [if_neg hByte]
    exact .pure hNext rfl

/-! ### Items and containers -/

theorem readItem_traced {readValue : ReadM Source} {top : Frame} {closing : UInt8} {step : Step}
    (hClosing : closing = 0x7d ∨ closing = 0x5d) (hStep : top.step r.bytes = some step)
    (hValue : r.Traced (top :: below) (top :: below) (fun _ frames' => frames' = top :: below)
      readValue place) :
    r.Traced below (top :: below)
      (fun item frames' => frames' = if item.2 then below else top.comma :: below)
      (r.readItem readValue closing step) place := by
  apply Traced.within hStep
  apply hValue.bind
  rintro value next _ - rfl - hNext
  apply (readDelimiter_traced hClosing hNext).bind
  rintro closed last frames' - hFrames - hLast
  exact .pure hLast hFrames

theorem Frame.comma_object {frame : Frame} (h : frame.isObject = true) :
    frame.comma.isObject = true ∧ frame.comma.inValue = false := by
  rw [Frame.comma, if_pos h]
  exact ⟨h, rfl⟩

theorem Frame.comma_array {frame : Frame} (h : frame.isObject = false) :
    frame.comma.isObject = false ∧ frame.comma.index = frame.index + 1 := by
  rw [Frame.comma, if_neg (Bool.not_eq_true _ ▸ h)]
  exact ⟨h, rfl⟩

/-- The innermost frame is that of the container whose items are read; `depth` is the
nesting of the items. -/
def ValueTraced (r : Reading) (depth : Nat) (readValue : ReadM Source) : Prop :=
  ∀ (place : Place) (frames : List Frame), place.offset ≤ r.bytes.length → Settled r.bytes frames →
    frames.length = depth →
    r.Traced frames frames (fun _ frames' => frames' = frames) readValue place

theorem readMembers_traced {readValue : ReadM Source}
    (hValue : r.ValueTraced (below.length + 1) readValue) (rounds : Nat) (seen : List Bytes)
    {frame : Frame} (hObject : frame.isObject = true) (hInValue : frame.inValue = false)
    (hPlace : place.offset ≤ r.bytes.length) (hRounds : r.bytes.length < place.offset + rounds) :
    r.Traced below (frame :: below) (fun _ frames' => frames' = below)
      (r.readMembers readValue rounds seen)
      place := by
  induction rounds generalizing place seen frame with
  | zero => omega
  | succ rounds ih =>
      apply (readKey_traced hPlace hObject hInValue seen).bind
      rintro key next _ hKeyRead ⟨keyed, rfl, hKeyed⟩ - hNext
      have hProgress := ((readKey_advances hPlace seen).ok hKeyRead).1
      apply (readSpace_traced hNext).bind
      rintro _ next' _ - rfl hLe' hNext'
      apply (readColon_traced hNext' hKeyed).bind
      rintro _ next'' _ - ⟨settled, rfl, hSettled, hStep⟩ hLe'' hNext''
      have hItem := hValue next'' (settled :: below) hNext'' ⟨_, hStep⟩ rfl
      apply (readItem_traced (Or.inl rfl) hStep hItem).bind
      rintro ⟨value, closed⟩ last frames' - hFrames hLe hLast
      cases closed with
      | true => exact .pure hLast hFrames
      | false =>
          obtain ⟨hComma, hComma'⟩ := Frame.comma_object hSettled
          rw [hFrames]
          apply (ih (key.text :: seen) hComma hComma' hLast (by omega)).bind
          rintro rest end' frames'' - hEnd - hEnd'
          exact .pure hEnd' hEnd

theorem readElements_traced {readValue : ReadM Source}
    (hValue : r.ValueTraced (below.length + 1) readValue) (rounds position : Nat) {frame : Frame}
    (hArray : frame.isObject = false) (hIndex : frame.index = position)
    (hPlace : place.offset ≤ r.bytes.length)
    (hItem : ∀ place : Place, place.offset ≤ r.bytes.length → r.Advances 0 readValue place)
    (hRounds : r.bytes.length < place.offset + rounds) :
    r.Traced below (frame :: below) (fun _ frames' => frames' = below)
      (r.readElements readValue rounds position) place := by
  induction rounds generalizing place position frame with
  | zero => omega
  | succ rounds ih =>
      have hStep : frame.step r.bytes = some (.index position) := by
        rw [Frame.step, if_neg (Bool.not_eq_true _ ▸ hArray), hIndex]
      apply (readItem_traced (Or.inr rfl) hStep
        (hValue place (frame :: below) hPlace ⟨_, hStep⟩ rfl)).bind
      rintro ⟨value, closed⟩ last frames' hRead hFrames - hLast
      have hProgress := ((readItem_advances hItem hPlace 0x5d _).ok hRead).1
      cases closed with
      | true => exact .pure hLast hFrames
      | false =>
          obtain ⟨hComma, hComma'⟩ := Frame.comma_array hArray
          rw [hFrames]
          apply (ih (position + 1) hComma (by rw [hComma', hIndex]) hLast (by omega)).bind
          rintro rest end' frames'' - hEnd - hEnd'
          exact .pure hEnd' hEnd

theorem openContainer_traced {depth : Nat} {opening closing : UInt8}
    (hOpening : opening = 0x7b ∨ opening = 0x5b) (hClosing : closing = 0x7d ∨ closing = 0x5d)
    (hEnd : ¬r.atEnd place = true) (hCurrent : r.current place = opening)
    (hDepth : frames.length = depth) (hMaximum : r.maximumDepth ≤ maximumDepthCeiling) :
    r.Traced frames frames
      (fun closed frames' => frames' = if closed then frames else
        .opening (opening = 0x7b) :: frames)
      (r.openContainer depth closing) place := by
  have hInside : place.offset < r.bytes.length := lt_of_not_atEnd hEnd
  have hPlace : place.offset ≤ r.bytes.length := Nat.le_of_succ_le hInside
  apply Traced.congr (get_bind _ place)
  by_cases hDeep : depth ≥ r.maximumDepth
  · rw [if_pos hDeep]
    exact .here [] (.refuse le_rfl (Or.inr (Or.inr (Or.inl rfl)))) rfl hPlace rfl
  rw [if_neg hDeep]
  have hToken : r.Traced frames frames (fun _ frames' => frames' = frames)
      (r.takeToken place.offset) place := by
    by_cases hFull : place.count ≥ r.capacity
    · exact .here [] (takeToken_advances hPlace) (if_pos hFull) hPlace rfl
    · exact .ok (takeToken_advances hPlace) (if_neg hFull) rfl (.refl _)
  apply hToken.bind
  rintro _ next frames' hTake hSame - -
  rw [hSame]
  have hNext : next.offset = place.offset := by
    rw [takeToken] at hTake
    split_ifs at hTake
    · cases hTake
    · cases hTake
      rfl
  have hScans : Scans r.bytes ⟨next.offset, frames⟩
      ⟨place.offset + 1, .opening (opening = 0x7b) :: frames⟩ := by
    rw [hNext]
    apply Scans.next hInside
    rw [@scanStep_opening _ ⟨place.offset, frames⟩ _ hCurrent hOpening
      (show frames.length < _ by omega)]
    exact .refl _
  have hAdvance : r.Traced frames frames
      (fun _ frames' => frames' = .opening (opening = 0x7b) :: frames)
      (advance (place.offset + 1)) next :=
    .ok ⟨by rw [hNext]; exact Nat.le_succ _, hInside⟩ rfl rfl hScans
  apply hAdvance.bind
  rintro _ after frames' - hPushed - hAfter
  rw [hPushed]
  exact readEmpty_traced hClosing hAfter

theorem readObject_traced {readValue : ReadM Source} {depth : Nat}
    (hValue : depth < r.maximumDepth → r.ValueTraced (depth + 1) readValue)
    (hEnd : ¬r.atEnd place = true) (hCurrent : r.current place = 0x7b)
    (hDepth : frames.length = depth) (hMaximum : r.maximumDepth ≤ maximumDepthCeiling) :
    r.Traced frames frames (fun _ frames' => frames' = frames) (r.readObject readValue depth)
      place := by
  apply Traced.congr (readObject_eq r readValue depth place)
  apply (openContainer_traced (Or.inl rfl) (Or.inl rfl) hEnd hCurrent hDepth hMaximum).bind
  rintro closed next frames' hOpen hFrames - hNext
  have hItems := hValue (openContainer_depth hOpen)
  cases closed with
  | true =>
      have hClosed : frames' = frames := hFrames
      exact .ok ⟨le_rfl, hNext⟩ rfl hClosed (.refl _)
  | false =>
      rw [← hDepth] at hItems
      rw [hFrames]
      apply (readMembers_traced hItems (r.bytes.length + 1) [] rfl rfl hNext (by omega)).bind
      rintro members last frames'' - hLastFrames - hLast
      exact .congr (get_bind _ last) (.pure hLast hLastFrames)

theorem readArray_traced {readValue : ReadM Source} {depth : Nat}
    (hValue : depth < r.maximumDepth → r.ValueTraced (depth + 1) readValue)
    (hItem : depth < r.maximumDepth → ∀ place : Place, place.offset ≤ r.bytes.length →
      r.Advances 0 readValue place) (hEnd : ¬r.atEnd place = true)
    (hCurrent : r.current place = 0x5b) (hDepth : frames.length = depth)
    (hMaximum : r.maximumDepth ≤ maximumDepthCeiling) :
    r.Traced frames frames (fun _ frames' => frames' = frames) (r.readArray readValue depth)
      place := by
  apply Traced.congr (readArray_eq r readValue depth place)
  apply (openContainer_traced (Or.inr rfl) (Or.inr rfl) hEnd hCurrent hDepth hMaximum).bind
  rintro closed next frames' hOpen hFrames - hNext
  have hLess := openContainer_depth hOpen
  have hItems := hValue hLess
  cases closed with
  | true =>
      have hClosed : frames' = frames := hFrames
      exact .ok ⟨le_rfl, hNext⟩ rfl hClosed (.refl _)
  | false =>
      rw [← hDepth] at hItems
      rw [hFrames]
      apply (readElements_traced hItems (r.bytes.length + 1) 0 rfl rfl hNext (hItem hLess)
        (by omega)).bind
      rintro elements last frames'' - hLastFrames - hLast
      exact .congr (get_bind _ last) (.pure hLast hLastFrames)

theorem readPrimitive_traced (hPlace : place.offset ≤ r.bytes.length) :
    r.Traced frames frames (fun _ frames' => frames' = frames) r.readPrimitive place := by
  have hAdvances := @readPrimitive_advances r place hPlace
  cases hValue : primitive ⟨place.offset, primitiveEnd r.bytes place.offset⟩
      (r.content place.offset (primitiveEnd r.bytes place.offset)) with
  | none =>
      have hRead : r.readPrimitive place = .error ⟨.errSyntax, place.offset, []⟩ place := by
        simp only [readPrimitive, hValue]
        rfl
      exact .here [] hAdvances hRead hPlace rfl
  | some value =>
      have hRead := readPrimitive_some hValue
      by_cases hFull : place.count ≥ r.capacity
      · rw [if_pos hFull] at hRead
        exact .here [] hAdvances hRead hPlace rfl
      · rw [if_neg hFull] at hRead
        obtain ⟨type, hType⟩ :
            ∃ type, primitiveType (r.content place.offset (primitiveEnd r.bytes place.offset)) =
            some type := by
          cases hType : primitiveType (r.content place.offset (primitiveEnd r.bytes place.offset))
            with
          | none =>
              rw [primitive, hType] at hValue
              cases hValue
          | some type => exact ⟨type, rfl⟩
        exact .ok hAdvances hRead rfl (.primitive hType frames)

theorem readValue_traced (hMaximum : r.maximumDepth ≤ maximumDepthCeiling) {fuel depth : Nat}
    (hFuel : depth + fuel = r.maximumDepth + 1) (hDepth : depth ≤ r.maximumDepth) :
    r.ValueTraced depth (r.readValue fuel depth) := by
  induction fuel generalizing depth with
  | zero => omega
  | succ fuel ih =>
      intro place frames hPlace hSettled hFrames
      apply (readSpace_traced hPlace).bind
      rintro _ next _ - rfl - hNext
      apply Traced.congr (get_bind _ next)
      have hValue (hLess : depth < r.maximumDepth) := ih (by omega) (Nat.succ_le_of_lt hLess)
      by_cases hEnd : r.atEnd next = true
      · rw [if_pos hEnd]
        exact .here [] (.refuse le_rfl (Or.inl rfl)) rfl hNext rfl
      rw [if_neg hEnd]
      by_cases hObject : r.current next = 0x7b
      · rw [if_pos hObject]
        exact readObject_traced hValue hEnd hObject hFrames hMaximum
      rw [if_neg hObject]
      by_cases hArray : r.current next = 0x5b
      · rw [if_pos hArray]
        have hItem (hLess : depth < r.maximumDepth) (place : Place)
            (hPlace : place.offset ≤ r.bytes.length) :
            r.Advances 0 (r.readValue fuel (depth + 1)) place :=
          readValue_advances (by omega) (Nat.succ_le_of_lt hLess) hPlace
        exact readArray_traced hValue hItem hEnd hArray hFrames hMaximum
      rw [if_neg hArray]
      by_cases hString : r.current next = 0x22
      · rw [if_pos hString]
        apply (readString_settled hNext hSettled).bind
        rintro literal last _ - rfl - hLast
        exact .pure hLast rfl
      · rw [if_neg hString]
        exact readPrimitive_traced hNext

end

/-- At the offset of a fault the scan has the path of the fault. -/
theorem readText_scan (hMaximum : r.maximumDepth ≤ maximumDepthCeiling) {fault : Fault}
    (h : r.readText = .error fault) :
    fault.offset ≤ r.bytes.length ∧
    framesPath r.bytes (scan r.bytes fault.offset) = fault.path := by
  have hScan (frames : List Frame) (offset : Nat) (hLength : fault.offset ≤ r.bytes.length)
      (hStops : Stops r.bytes fault.offset ⟨0, []⟩ ⟨offset, frames⟩) :
      scan r.bytes fault.offset = frames.reverse := by
    rw [scan, hStops.scanFrom hLength (by simp only; omega)]
  obtain ⟨hAdvances, hRun⟩ := @readValue_traced r hMaximum (r.maximumDepth + 1) 0 (by omega)
    (Nat.zero_le _) ⟨0, 0⟩ [] (Nat.zero_le _) trivial rfl
  rw [readText] at h
  cases hRead : r.readValue (r.maximumDepth + 1) 0 ⟨0, 0⟩ with
  | error fault' next =>
      rw [hRead] at h hRun
      cases h
      obtain ⟨hLength, inner, offset, hStops, hPath⟩ := hRun
      rw [List.append_nil] at hStops
      rw [hScan inner offset hLength hStops]
      exact ⟨hLength, hPath⟩
  | ok value next =>
      rw [hRead] at hRun
      simp only [hRead] at h
      split_ifs at h
      cases h
      obtain ⟨_, rfl, hScans⟩ := hRun
      have hEnd := scanWhile_le isSpace r.bytes next.offset (hAdvances.ok hRead).2
      have hStops := (hScans.trans (.space next.offset [])).stops le_rfl (.stop le_rfl)
      rw [hScan [] _ hEnd hStops]
      exact ⟨hEnd, rfl⟩

end Reading

end MaelysJson
