import Mathlib.Data.List.TakeWhile
import MaelysJson.Text.Literal

/-! The decoder of string literals: it accepts exactly the sequences of string
units, and what it refuses it refuses at the start of the first unit that fails. -/
namespace MaelysJson

open Grammar Utf8

theorem Grammar.StringUnits.split {Raw : Char → Prop} (hRaw : ∀ c, Raw c → NotEscape c)
    {bytes text left leftText right : Bytes} (h : StringUnits Raw bytes text)
    (hLeft : StringUnits Raw left leftText) (hEq : bytes = left ++ right) :
    ∃ rightText, StringUnits Raw right rightText ∧ text = leftText ++ rightText := by
  induction hLeft generalizing bytes text with
  | nil => exact ⟨text, by rwa [hEq, List.nil_append] at h, rfl⟩
  | @cons unit decoded rest restText head tail ih =>
      rw [List.append_assoc] at hEq
      cases h with
      | nil => exact absurd (List.append_eq_nil_iff.mp hEq.symm).1 head.ne_nil
      | @cons unit' decoded' rest' text' head' tail' =>
          obtain ⟨rfl, rfl⟩ := head'.unique hRaw head hEq
          obtain ⟨rightText, hRight, rfl⟩ := ih tail' (List.append_cancel_left hEq)
          exact ⟨rightText, hRight, (List.append_assoc _ _ _).symm⟩

theorem Grammar.StringUnits.nil_text {Raw : Char → Prop} {bytes text : Bytes}
    (h : StringUnits Raw bytes text) (hBytes : bytes = []) : text = [] := by
  cases h with
  | nil => rfl
  | cons head tail => exact absurd (List.append_eq_nil_iff.mp hBytes).1 head.ne_nil

/-- A sequence of units denotes one text. -/
theorem Grammar.StringUnits.unique {Raw : Char → Prop} (hRaw : ∀ c, Raw c → NotEscape c)
    {bytes text text' : Bytes} (h : StringUnits Raw bytes text) (h' : StringUnits Raw bytes text') :
    text = text' := by
  obtain ⟨rest, hRest, rfl⟩ := h.split hRaw h' (List.append_nil bytes).symm
  rw [hRest.nil_text rfl, List.append_nil]

/-! ### Escapes of code points -/

theorem readEscapePoint_sound {bytes : Bytes} {input point next : Nat}
    (h : readEscapePoint bytes input = (point, next)) (hPoint : point ≠ 0) :
    ∃ tail, bytes.drop input = tail ++ bytes.drop next ∧ next = input + tail.length ∧
      UnitTail 0x75 tail (encodeUtf8 point) := by
  unfold readEscapePoint at h
  split_ifs at h with hShort
  · exact absurd (Prod.mk.inj h).1.symm hPoint
  · cases hUnit : readU16 bytes input with
    | none =>
        rw [hUnit] at h
        exact absurd (Prod.mk.inj h).1.symm hPoint
    | some unit =>
        have hCode := (readU16_iff bytes input unit (by omega)).mp hUnit
        have hDrop : bytes.drop input = (bytes.drop input).take 4 ++ bytes.drop (input + 4) := by
          rw [← List.drop_drop, List.take_append_drop]
        simp only [hUnit] at h
        split_ifs at h with hHigh hEnd hLow
        · exact absurd (Prod.mk.inj h).1.symm hPoint
        · simp only [not_or, not_not] at hEnd
          cases hUnit' : readU16 bytes (input + 4 + 2) with
          | none =>
              rw [hUnit'] at h
              exact absurd (Prod.mk.inj h).1.symm hPoint
          | some low =>
              have hCode' := (readU16_iff bytes (input + 4 + 2) low (by omega)).mp hUnit'
              simp only [hUnit'] at h
              split_ifs at h with hRange
              · exact absurd (Prod.mk.inj h).1.symm hPoint
              · obtain ⟨rfl, rfl⟩ := Prod.mk.inj h
                obtain ⟨c, hc⟩ := exists_scalar
                  (n := 0x10000 + (unit - 0xd800) * 0x400 + (low - 0xdc00)) (by omega)
                have hPair := UnitTail.pair c hCode hCode' hHigh (by omega) hc
                have hShift : (unit - 0xd800) <<< 10 = (unit - 0xd800) * 0x400 :=
                  Nat.shiftLeft_eq _ _
                refine ⟨(bytes.drop input).take 4 ++ [0x5c, 0x75] ++
                    (bytes.drop (input + 4 + 2)).take 4, ?_, ?_, ?_⟩
                · rw [hDrop, @drop_eq_byteAt_cons _ (input + 4) (by omega),
                    @drop_eq_byteAt_cons _ (input + 4 + 1) (by omega), hEnd.2.1, hEnd.2.2,
                    List.take_left' hCode.length]
                  simp only [List.append_assoc, List.cons_append, List.nil_append]
                  rw [← List.drop_drop (i := 4) (j := input + 4 + 1 + 1), List.take_append_drop]
                · simp only [List.length_append, hCode.length, hCode'.length, List.length_cons,
                    List.length_nil]
                · rw [hShift, ← hc, encodeUtf8_eq]
                  exact hPair
        · exact absurd (Prod.mk.inj h).1.symm hPoint
        · obtain ⟨rfl, rfl⟩ := Prod.mk.inj h
          obtain ⟨c, hc⟩ := exists_scalar (n := unit) (by
            have := hCode
            obtain ⟨a, b, d, e, p, q, r, s, -, hp, hq, hr, hs, rfl⟩ := this
            have := hp.lt
            have := hq.lt
            have := hr.lt
            have := hs.lt
            omega)
          refine ⟨_, hDrop, by rw [hCode.length], ?_⟩
          rw [← hc, encodeUtf8_eq]
          exact .point c (by rwa [hc]) (by rwa [hc])

theorem readEscapePoint_complete {bytes tail decoded rest : Bytes} {input : Nat}
    (h : UnitTail 0x75 tail decoded) (hDrop : bytes.drop input = tail ++ rest)
    (hInput : input ≤ bytes.length) : (readEscapePoint bytes input).1 ≠ 0 := by
  cases h with
  | simple escapes => simp [simpleEscapes] at escapes
  | point c unit nonzero =>
      obtain ⟨hRead, hEnd⟩ := readU16_of_drop hDrop unit hInput
      have hc := scalar_range c
      simp only [readEscapePoint, hRead]
      split_ifs <;> omega
  | pair c high low highRange lowRange value =>
      rw [List.append_assoc, List.append_assoc] at hDrop
      obtain ⟨hRead, hEnd⟩ := readU16_of_drop hDrop high hInput
      have hSlash := drop_add_of_drop hDrop
      rw [high.length, List.cons_append, List.cons_append, List.nil_append] at hSlash
      have hLetter := drop_succ_of_drop hSlash
      have hLow := drop_succ_of_drop hLetter
      obtain ⟨hRead', hEnd'⟩ := readU16_of_drop hLow low (lt_length_of_drop hLetter)
      simp only [readEscapePoint, hRead, byteAt_of_drop hSlash, byteAt_of_drop hLetter]
      rw [if_neg (by omega), if_pos highRange, if_neg (by simp; omega)]
      simp only [hRead']
      split_ifs <;> omega

/-! ### The decoder -/

/-- Where and why the decoder refuses `bytes`: after some units, at the start of
one that fails. -/
structure Undecodable (bytes : Bytes) (code : Result) (bad : Nat) : Prop where
  lt : bad < bytes.length
  units : ∃ text, StringUnits NotEscape (bytes.take bad) text
  fails : ∀ unit decoded rest, bytes.drop bad = unit ++ rest → ¬StringUnit NotEscape unit decoded
  code : code = if byteAt bytes bad = 0x5c then .errSyntax else .errUtf8

theorem Grammar.StringUnits.take_succ {Raw : Char → Prop} {bytes text unit decoded : Bytes}
    {input next : Nat} (h : StringUnits Raw (bytes.take input) text)
    (hUnit : StringUnits Raw unit decoded) (hDrop : bytes.drop input = unit ++ bytes.drop next)
    (hNext : next = input + unit.length) :
    StringUnits Raw (bytes.take next) (text ++ decoded) := by
  have hTake : bytes.take next = bytes.take input ++ unit := by
    subst hNext
    rw [List.take_add, hDrop, List.take_left]
  rw [hTake]
  exact h.append hUnit

theorem Grammar.StringUnit.units {Raw : Char → Prop} {unit decoded : Bytes}
    (h : StringUnit Raw unit decoded) : StringUnits Raw unit decoded := by
  have hUnits := StringUnits.cons h .nil
  rwa [List.append_nil, List.append_nil] at hUnits

/-- A unit at a reverse solidus is an escape. -/
theorem Grammar.StringUnit.tail_of_drop {bytes unit decoded rest : Bytes} {input : Nat}
    (h : StringUnit NotEscape unit decoded) (hDrop : bytes.drop input = unit ++ rest)
    (hSlash : byteAt bytes input = 0x5c) :
    ∃ escape tail, unit = 0x5c :: escape :: tail ∧ UnitTail escape tail decoded := by
  rcases h.cases_head with ⟨c, hc, rfl, -⟩ | hTail
  · obtain ⟨byte, tail, hByte⟩ := List.exists_cons_of_ne_nil (String.utf8EncodeChar_ne_nil (c := c))
    rw [hByte] at hDrop
    have hNe := @ne_of_mem_encodeChar _ byte 0x5c (by decide) hc (by simp [hByte])
    exact absurd ((byteAt_of_drop hDrop).symm.trans hSlash) hNe
  · exact hTail

/-- The run before the next reverse solidus, as far as it is valid. -/
theorem decodeString_run {bytes : Bytes} {input : Nat} (hInput : input < bytes.length) :
    let stop := scanWhile (· != 0x5c) bytes input
    let valid := utf8ValidPrefix ((bytes.drop input).take (stop - input))
    ∃ text, (∀ c ∈ text, NotEscape c) ∧
      bytes.drop input = encode text ++ bytes.drop (input + valid) ∧
      valid = (encode text).length ∧ input + valid ≤ stop ∧
      (input + valid < stop → byteAt bytes (input + valid) ≠ 0x5c ∧
        ∀ unit decoded rest, bytes.drop (input + valid) = unit ++ rest →
          ¬StringUnit NotEscape unit decoded) := by
  intro stop valid
  have hRun : (bytes.drop input).take (stop - input) =
      (bytes.drop input).takeWhile (· != 0x5c) := take_scanned _ _ _
  obtain ⟨text, hText, hValid, hLast⟩ :=
    utf8ValidPrefix_spec ((bytes.drop input).take (stop - input))
  have hStop : stop ≤ bytes.length := scanWhile_le _ _ _ hInput.le
  have hStart : input ≤ stop := le_scanWhile _ _ _
  have hLength : ((bytes.drop input).take (stop - input)).length = stop - input := by
    rw [List.length_take, List.length_drop]
    omega
  have hMem : ∀ byte ∈ (bytes.drop input).take (stop - input), byte ≠ 0x5c := by
    rw [hRun]
    intro byte hByte
    simpa using List.mem_takeWhile_imp hByte
  have hNot : ∀ c ∈ text, NotEscape c := by
    refine @ne_of_encode _ 0x5c (by decide) fun h => ?_
    refine hMem 0x5c ?_ rfl
    rw [hText]
    exact List.mem_append_left _ h
  have hDrop : bytes.drop input = encode text ++ bytes.drop (input + valid) := by
    have hSplit := List.take_append_drop (stop - input) (bytes.drop input)
    rw [hText, List.append_assoc] at hSplit
    rw [← List.drop_drop, ← hSplit]
    rw [show valid = (encode text).length from hValid, List.drop_left]
  have hLe : input + valid ≤ stop := by
    have := congrArg List.length hText
    rw [List.length_append, hLength, ← hValid] at this
    change stop - input = valid + _ at this
    omega
  refine ⟨text, hNot, hDrop, hValid, hLe, fun hLt => ?_⟩
  have hRest : ((bytes.drop input).take (stop - input)).drop valid =
      (bytes.drop (input + valid)).takeWhile (· != 0x5c) := by
    rw [hRun, hDrop, List.takeWhile_append_of_pos, show valid = (encode text).length from hValid,
      List.drop_left]
    intro byte hByte
    simpa using @ne_of_mem_encode _ _ 0x5c (by decide) hNot hByte
  have hHead : byteAt bytes (input + valid) ≠ 0x5c := by
    intro hSlash
    have hNil : ((bytes.drop input).take (stop - input)).drop valid = [] := by
      rw [hRest, drop_eq_byteAt_cons (by omega), hSlash]
      rfl
    have := congrArg List.length hNil
    rw [List.length_drop, hLength, List.length_nil] at this
    omega
  refine ⟨hHead, fun unit decoded rest hUnit h => ?_⟩
  rcases h.cases_head with ⟨c, hc, rfl, -⟩ | ⟨escape, tail, rfl, -⟩
  · rcases hLast with hLast | hLast
    · rw [hLength] at hLast
      change valid = _ at hLast
      omega
    · have hSome := (@utf8SequenceEnd_iff ((bytes.drop input).take (stop - input)) valid _
        (by rw [hLength]; omega)).mpr ⟨c, by
          rw [← List.drop_drop, hRest, hUnit, List.takeWhile_append_of_pos, List.drop_left]
          intro byte hByte
          simpa using @ne_of_mem_encodeChar _ _ 0x5c (by decide) hc hByte, rfl⟩
      rw [hLast] at hSome
      cases hSome
  · rw [List.cons_append] at hUnit
    exact hHead (byteAt_of_drop hUnit)

theorem decodeStringFrom_spec {bytes : Bytes} {profile : Profile}
    (hProfile : profile ≠ .contractAscii) (rounds input : Nat) (out : Bytes)
    (hInput : input ≤ bytes.length) (hRounds : bytes.length < rounds + input)
    (hOut : StringUnits NotEscape (bytes.take input) out) :
    match decodeStringFrom bytes profile rounds input out with
    | .ok text => StringUnits NotEscape bytes text
    | .error (code, bad) => Undecodable bytes code bad := by
  induction rounds generalizing input out with
  | zero => omega
  | succ rounds ih =>
      rw [decodeStringFrom]
      by_cases hEnd : input < bytes.length
      swap
      · rw [if_neg hEnd]
        rwa [List.take_of_length_le (by omega)] at hOut
      simp only [if_pos hEnd, if_neg hProfile]
      by_cases hSlash : byteAt bytes input = 0x5c
      swap
      · -- a run of bytes that stand for themselves
        rw [if_pos hSlash]
        obtain ⟨text, hText, hDrop, hValid, hLe, hBad⟩ := decodeString_run hEnd
        have hStop := scanWhile_le (· != 0x5c) bytes input hInput
        have hUnits := hOut.take_succ (StringUnits.encode hText) hDrop (by rw [hValid])
        split_ifs with hWhole
        · obtain ⟨hHead, hFails⟩ := hBad (by omega)
          exact ⟨by omega, ⟨_, hUnits⟩, hFails, by rw [if_neg hHead]⟩
        · rw [not_not] at hWhole
          have hStart := le_scanWhile (· != 0x5c) bytes input
          have hEq : input + (scanWhile (· != 0x5c) bytes input - input) =
              scanWhile (· != 0x5c) bytes input := by omega
          have hRun : (bytes.drop input).take (scanWhile (· != 0x5c) bytes input - input) =
              encode text := by
            rw [hDrop, ← hWhole, hValid, List.take_left]
          rw [hWhole, hEq] at hUnits
          rw [hRun]
          refine ih _ _ hStop ?_ hUnits
          have hPos : 0 < scanWhile (· != 0x5c) bytes input - input := by
            rw [scanWhile_sub, drop_eq_byteAt_cons hEnd,
              List.takeWhile_cons_of_pos (by simpa using hSlash)]
            exact Nat.succ_pos _
          omega
      · rw [if_neg (not_not.mpr hSlash)]
        have hRefused (hNone : ∀ escape tail decoded rest,
            bytes.drop (input + 1) = escape :: tail ++ rest → ¬UnitTail escape tail decoded) :
            Undecodable bytes .errSyntax input := by
          refine ⟨hEnd, ⟨out, hOut⟩, fun unit decoded rest hDrop h => ?_, by rw [if_pos hSlash]⟩
          obtain ⟨escape, tail, rfl, hTail⟩ := h.tail_of_drop hDrop hSlash
          rw [List.cons_append] at hDrop
          exact hNone escape tail decoded rest (drop_succ_of_drop hDrop) hTail
        by_cases hLast : input + 1 ≥ bytes.length
        · rw [if_pos hLast]
          refine hRefused fun escape tail decoded rest hDrop => ?_
          rw [List.drop_eq_nil_of_le hLast] at hDrop
          cases hDrop
        rw [if_neg hLast]
        have hNext : bytes.drop input =
            0x5c :: byteAt bytes (input + 1) :: bytes.drop (input + 2) := by
          rw [drop_eq_byteAt_cons hEnd, drop_eq_byteAt_cons (by omega), hSlash]
        by_cases hPoint : byteAt bytes (input + 1) = 0x75
        · rw [if_pos hPoint]
          rcases hRead : readEscapePoint bytes (input + 2) with ⟨point, next⟩
          by_cases hZero : point = 0
          · simp only [if_pos hZero]
            refine hRefused fun escape tail decoded rest hDrop h => ?_
            have hEscape := @byteAt_of_drop bytes _ (input + 1) _
              (by rw [hDrop, List.cons_append])
            rw [hPoint] at hEscape
            subst hEscape
            refine readEscapePoint_complete h (drop_succ_of_drop hDrop) (by omega) ?_
            rw [hRead]
            exact hZero
          · simp only [if_neg hZero]
            obtain ⟨tail, hTail, hLength, h⟩ := readEscapePoint_sound hRead hZero
            refine ih next _ ?_ (by omega) (hOut.take_succ h.unit.units ?_ ?_)
            · have := @le_length_of_drop _ _ _ (input + 2) (by omega) hTail
              omega
            · rw [hNext, hPoint, hTail]
              rfl
            · simp only [List.length_cons]
              omega
        · rw [if_neg hPoint]
          cases hEscape : simpleEscape (byteAt bytes (input + 1)) with
          | none =>
              refine hRefused fun escape tail decoded rest hDrop h => ?_
              have hByte := @byteAt_of_drop bytes _ (input + 1) _
                (by rw [hDrop, List.cons_append])
              cases h with
              | simple escapes =>
                  rw [hByte, (simpleEscape_iff _ _).mpr escapes] at hEscape
                  cases hEscape
              | point c unit nonzero => exact hPoint hByte
              | pair c high low highRange lowRange value => exact hPoint hByte
          | some decoded =>
              have h := @StringUnit.simple NotEscape _ _ ((simpleEscape_iff _ _).mp hEscape)
              refine ih (input + 2) _ (by omega) (by omega) (hOut.take_succ h.units ?_ rfl)
              rw [hNext]
              rfl

/-- The decoder accepts a sequence of units, or names the first unit that fails. -/
theorem decodeString_spec (bytes : Bytes) {profile : Profile}
    (hProfile : profile ≠ .contractAscii) :
    match decodeString bytes profile with
    | .ok text => StringUnits NotEscape bytes text
    | .error (code, bad) => Undecodable bytes code bad :=
  decodeStringFrom_spec hProfile _ 0 [] (Nat.zero_le _) (by omega) .nil

theorem decodeString_iff (bytes text : Bytes) {profile : Profile}
    (hProfile : profile ≠ .contractAscii) :
    decodeString bytes profile = .ok text ↔ StringUnits NotEscape bytes text := by
  have hSpec := decodeString_spec bytes hProfile
  cases hDecode : decodeString bytes profile with
  | ok text' =>
      rw [hDecode] at hSpec
      refine ⟨fun h => ?_, fun h => by rw [h.unique (fun _ h => h) hSpec]⟩
      rwa [← Except.ok.inj h]
  | error fault =>
      rw [hDecode] at hSpec
      refine ⟨nofun, fun h => ?_⟩
      obtain ⟨leftText, hLeft⟩ := hSpec.units
      obtain ⟨rightText, hRight, -⟩ :=
        h.split (fun _ h => h) hLeft (List.take_append_drop fault.2 bytes).symm
      cases hRest : bytes.drop fault.2 with
      | nil =>
          have := List.drop_eq_nil_iff.mp hRest
          have := hSpec.lt
          omega
      | cons byte rest =>
          rw [hRest] at hRight
          generalize hEq : byte :: rest = right at hRight
          cases hRight with
          | nil => cases hEq
          | cons head tail => exact (hSpec.fails _ _ _ (hRest.trans hEq) head).elim

/-! ### What a decoded text looks like -/

/-- A unit denotes one scalar value. -/
theorem Grammar.StringUnit.exists_scalar {Raw : Char → Prop} {unit decoded : Bytes}
    (h : StringUnit Raw unit decoded) : ∃ c : Char, decoded = String.utf8EncodeChar c := by
  cases h with
  | scalar c raw => exact ⟨c, rfl⟩
  | simple escapes =>
      simp only [simpleEscapes, List.mem_cons, Prod.mk.injEq, List.not_mem_nil, or_false] at escapes
      rcases escapes with ⟨-, rfl⟩ | ⟨-, rfl⟩ | ⟨-, rfl⟩ | ⟨-, rfl⟩ | ⟨-, rfl⟩ |
        ⟨-, rfl⟩ | ⟨-, rfl⟩ | ⟨-, rfl⟩
      · exact ⟨.ofNat 0x22, by decide⟩
      · exact ⟨.ofNat 0x5c, by decide⟩
      · exact ⟨.ofNat 0x2f, by decide⟩
      · exact ⟨.ofNat 0x08, by decide⟩
      · exact ⟨.ofNat 0x0c, by decide⟩
      · exact ⟨.ofNat 0x0a, by decide⟩
      · exact ⟨.ofNat 0x0d, by decide⟩
      · exact ⟨.ofNat 0x09, by decide⟩
  | point c unit nonzero => exact ⟨c, rfl⟩
  | pair c high low highRange lowRange value => exact ⟨c, rfl⟩

theorem length_encodeChar_le (c : Char) :
    (String.utf8EncodeChar c).length ≤ 4 ∧
    (c.val.toNat ≤ 0xffff → (String.utf8EncodeChar c).length ≤ 3) := by
  rcases encode_cases c with ⟨a, h, _⟩ | ⟨a, b, h, _⟩ | ⟨a, b, d, h, _⟩ |
    ⟨a, b, d, e, h, _, _, _, _, hLarge⟩
  all_goals
    rw [h]
    simp only [List.length_cons, List.length_nil]
    omega

theorem Grammar.CodeUnit.lt {digits : Bytes} {unit : Nat} (h : CodeUnit digits unit) :
    unit < 0x10000 := by
  obtain ⟨a, b, c, d, p, q, r, s, -, hp, hq, hr, hs, rfl⟩ := h
  have := hp.lt
  have := hq.lt
  have := hr.lt
  have := hs.lt
  omega

/-- No unit is shorter than what it denotes. -/
theorem Grammar.StringUnit.length_le {Raw : Char → Prop} {unit decoded : Bytes}
    (h : StringUnit Raw unit decoded) : decoded.length ≤ unit.length := by
  cases h with
  | scalar c raw => exact le_rfl
  | simple escapes => exact Nat.le_succ 1
  | point c unit nonzero =>
      have := (length_encodeChar_le c).2 (by have := unit.lt; omega)
      rw [List.length_append, unit.length]
      simp only [List.length_cons, List.length_nil]
      omega
  | pair c high low highRange lowRange value =>
      have := (length_encodeChar_le c).1
      simp only [List.length_append, high.length, low.length, List.length_cons, List.length_nil]
      omega

/-- Only a NUL that stands for itself denotes a NUL. -/
theorem Grammar.StringUnit.nul_free {Raw : Char → Prop} {unit decoded : Bytes}
    (h : StringUnit Raw unit decoded) (hUnit : 0 ∉ unit) : 0 ∉ decoded := by
  intro hMem
  cases h with
  | scalar c raw => exact hUnit hMem
  | simple escapes =>
      rw [List.mem_singleton] at hMem
      subst hMem
      revert escapes
      simp [simpleEscapes]
  | point c unit nonzero => exact @ne_of_mem_encodeChar c 0 0 (by decide) nonzero hMem rfl
  | pair c high low highRange lowRange value =>
      have hc : c.val.toNat ≠ (0 : UInt8).toNat := by
        rw [value]
        simp
      exact @ne_of_mem_encodeChar c 0 0 (by decide) hc hMem rfl

theorem Grammar.StringUnits.text {Raw : Char → Prop} {bytes text : Bytes}
    (h : StringUnits Raw bytes text) :
    Valid text ∧ text.length ≤ bytes.length ∧ (0 ∉ bytes → 0 ∉ text) := by
  induction h with
  | nil => exact ⟨⟨[], rfl⟩, le_rfl, id⟩
  | cons head tail ih =>
      obtain ⟨⟨scalars, rfl⟩, hLength, hNul⟩ := ih
      obtain ⟨c, hc⟩ := head.exists_scalar
      have hHead := head.length_le
      refine ⟨⟨c :: scalars, by rw [hc, encode_cons]⟩, ?_, fun hBytes => ?_⟩
      · rw [List.length_append, List.length_append]
        omega
      · rw [List.mem_append, not_or] at hBytes ⊢
        exact ⟨head.nul_free hBytes.1, hNul hBytes.2⟩

/-! ### The first unit that fails -/

/-- Units that reach over a split offset go on with a unit from there. -/
theorem Grammar.StringUnits.unit_at {bytes text left : Bytes} {bad stop : Nat}
    (h : StringUnits NotEscape (bytes.take stop) text)
    (hLeft : StringUnits NotEscape (bytes.take bad) left) (hBad : bad < stop)
    (hStop : bad < bytes.length) :
    ∃ unit decoded rest, bytes.drop bad = unit ++ rest ∧ StringUnit NotEscape unit decoded := by
  have hTake : bytes.take stop = bytes.take bad ++ (bytes.drop bad).take (stop - bad) := by
    rw [← List.take_add, Nat.add_sub_cancel' hBad.le]
  obtain ⟨rightText, hRight, -⟩ := h.split (fun _ h => h) hLeft hTake
  generalize hEq : (bytes.drop bad).take (stop - bad) = right at hRight
  cases hRight with
  | nil =>
      have hLength := congrArg List.length hEq
      rw [List.length_take, List.length_drop, List.length_nil] at hLength
      omega
  | @cons unit decoded rest text head tail =>
      refine ⟨unit, decoded, rest ++ (bytes.drop bad).drop (stop - bad), ?_, head⟩
      rw [← List.append_assoc, ← hEq, List.take_append_drop]

theorem Undecodable.unique {bytes : Bytes} {code code' : Result} {bad bad' : Nat}
    (h : Undecodable bytes code bad) (h' : Undecodable bytes code' bad') :
    code = code' ∧ bad = bad' := by
  have hNotLt {code code' : Result} {bad bad' : Nat} (h : Undecodable bytes code bad)
      (h' : Undecodable bytes code' bad') : ¬bad < bad' := by
    intro hLt
    obtain ⟨left, hLeft⟩ := h.units
    obtain ⟨text, hText⟩ := h'.units
    obtain ⟨unit, decoded, rest, hDrop, hUnit⟩ := hText.unit_at hLeft hLt h.lt
    exact h.fails unit decoded rest hDrop hUnit
  obtain rfl : bad = bad' :=
    Nat.le_antisymm (Nat.le_of_not_lt (hNotLt h' h)) (Nat.le_of_not_lt (hNotLt h h'))
  exact ⟨h.code.trans h'.code.symm, rfl⟩

/-- Decoding is exact: the texts are those of the sequences of units, and the
diagnostics name the first unit that fails. -/
theorem decodeString_exact (bytes : Bytes) {profile : Profile}
    (hProfile : profile = .rfc8259 ∨ profile = .rfc8259LastWins) :
    (∀ text, decodeString bytes profile = .ok text ↔ StringUnits NotEscape bytes text) ∧
    (∀ text, decodeString bytes profile = .ok text →
      Valid text ∧ text.length ≤ bytes.length ∧ (0 ∉ bytes → 0 ∉ text)) ∧
    ∀ code bad, decodeString bytes profile = .error (code, bad) ↔ Undecodable bytes code bad := by
  have hAscii : profile ≠ .contractAscii := by
    rcases hProfile with rfl | rfl <;> nofun
  refine ⟨fun text => decodeString_iff bytes text hAscii, fun text h => ?_, fun code bad => ?_⟩
  · exact ((decodeString_iff bytes text hAscii).mp h).text
  · have hSpec := decodeString_spec bytes hAscii
    cases hDecode : decodeString bytes profile with
    | ok text =>
        rw [hDecode] at hSpec
        refine ⟨nofun, fun h => ?_⟩
        obtain ⟨left, hLeft⟩ := h.units
        rw [← List.take_length (l := bytes)] at hSpec
        obtain ⟨unit, decoded, rest, hDrop, hUnit⟩ := hSpec.unit_at hLeft h.lt h.lt
        exact (h.fails unit decoded rest hDrop hUnit).elim
    | error fault =>
        obtain ⟨code', bad'⟩ := fault
        rw [hDecode] at hSpec
        constructor
        · rintro ⟨⟩
          exact hSpec
        · intro h
          obtain ⟨rfl, rfl⟩ := h.unique hSpec
          rfl

theorem decodeString_exact_newline :
    decodeString [0x5c, 0x6e] .rfc8259 = .ok [0x0a] ∧ Valid [0x0a] :=
  ⟨rfl, ((decodeString_exact [0x5c, 0x6e] (Or.inl rfl)).2.1 [0x0a] rfl).1⟩

end MaelysJson
