import MaelysJson.Code.Parser
import MaelysJson.Text.Decode

/-! String literals as the reader takes them: the scan for the closing quotation
mark first, the decoder on what lies before it afterwards. Together they accept
exactly the contents of the grammar. -/
namespace MaelysJson

open Grammar Utf8

/-- What the scan passes over: bytes that stand alone, and a reverse solidus
together with any byte after it. -/
inductive Pieces (profile : Profile) : Bytes → Prop where
  | nil : Pieces profile []
  | plain {byte : UInt8} {rest : Bytes} (control : ¬byte < 0x20) (quote : byte ≠ 0x22)
      (slash : byte ≠ 0x5c) (ascii : profile = .contractAscii → ¬byte > 0x7e)
      (tail : Pieces profile rest) : Pieces profile (byte :: rest)
  | escaped {byte : UInt8} {rest : Bytes} (escapes : profile ≠ .contractAscii)
      (tail : Pieces profile rest) : Pieces profile (0x5c :: byte :: rest)

variable {profile : Profile}

theorem Pieces.append {left right : Bytes} (hLeft : Pieces profile left)
    (hRight : Pieces profile right) : Pieces profile (left ++ right) := by
  induction hLeft with
  | nil => exact hRight
  | plain control quote slash ascii tail ih => exact .plain control quote slash ascii ih
  | escaped escapes tail ih => exact .escaped escapes ih

/-- Bytes other than a reverse solidus are pieces by themselves. -/
theorem Pieces.of_plain {bytes : Bytes}
    (h : ∀ byte ∈ bytes, ¬byte < 0x20 ∧ byte ≠ 0x22 ∧ byte ≠ 0x5c ∧
      (profile = .contractAscii → ¬byte > 0x7e)) : Pieces profile bytes := by
  induction bytes with
  | nil => exact .nil
  | cons byte bytes ih =>
      obtain ⟨control, quote, slash, ascii⟩ := h byte List.mem_cons_self
      exact .plain control quote slash ascii (ih fun byte hByte =>
        h byte (List.mem_cons_of_mem _ hByte))

/-- Leading bytes other than a reverse solidus can be split off. -/
theorem Pieces.split {left right : Bytes} (h : Pieces profile (left ++ right))
    (hLeft : ∀ byte ∈ left, byte ≠ 0x5c) :
    (∀ byte ∈ left, ¬byte < 0x20 ∧ byte ≠ 0x22 ∧ (profile = .contractAscii → ¬byte > 0x7e)) ∧
      Pieces profile right := by
  induction left with
  | nil => exact ⟨fun _ h => absurd h List.not_mem_nil, h⟩
  | cons byte left ih =>
      rw [List.cons_append] at h
      generalize hRest : left ++ right = rest at h
      cases h with
      | plain control quote slash ascii tail =>
          subst hRest
          obtain ⟨hPlain, hRight⟩ := ih tail fun b hb => hLeft b (List.mem_cons_of_mem _ hb)
          refine ⟨fun b hb => ?_, hRight⟩
          rcases List.mem_cons.mp hb with rfl | hb
          · exact ⟨control, quote, ascii⟩
          · exact hPlain b hb
      | escaped escapes tail => exact absurd rfl (hLeft 0x5c List.mem_cons_self)

theorem scanStringFrom_sound {bytes : Bytes} {rounds offset stop : Nat}
    (h : scanStringFrom profile bytes rounds offset = .closed stop) :
    ∃ content, Pieces profile content ∧
      bytes.drop offset = content ++ 0x22 :: bytes.drop (stop + 1) ∧
      stop = offset + content.length := by
  induction rounds generalizing offset with
  | zero => cases h
  | succ rounds ih =>
      simp only [scanStringFrom] at h
      split_ifs at h with hEnd hQuote hControl hAscii hSlash hNext
      · cases h
        exact ⟨[], .nil, by rw [drop_eq_byteAt_cons hEnd, hQuote]; rfl, rfl⟩
      · obtain ⟨content, hPieces, hDrop, rfl⟩ := ih h
        refine ⟨0x5c :: byteAt bytes (offset + 1) :: content, .escaped ?_ hPieces, ?_, ?_⟩
        · exact fun hProfile => hAscii ⟨hProfile, Or.inl hSlash⟩
        · rw [drop_eq_byteAt_cons hEnd, drop_eq_byteAt_cons hNext, hDrop, hSlash]
          rfl
        · simp only [List.length_cons]
          omega
      · obtain ⟨content, hPieces, hDrop, rfl⟩ := ih h
        refine ⟨byteAt bytes offset :: content, .plain hControl hQuote hSlash ?_ hPieces, ?_, ?_⟩
        · exact fun hProfile hHigh => hAscii ⟨hProfile, Or.inr hHigh⟩
        · rw [drop_eq_byteAt_cons hEnd, hDrop]
          rfl
        · simp only [List.length_cons]
          omega

theorem scanStringFrom_complete {bytes content rest : Bytes} {rounds offset : Nat}
    (h : Pieces profile content) (hDrop : bytes.drop offset = content ++ 0x22 :: rest)
    (hRounds : content.length < rounds) :
    scanStringFrom profile bytes rounds offset = .closed (offset + content.length) := by
  induction h generalizing offset rounds with
  | nil =>
      obtain ⟨rounds, rfl⟩ := Nat.exists_eq_add_one.mpr hRounds
      rw [List.nil_append] at hDrop
      simp only [scanStringFrom, lt_length_of_drop hDrop, byteAt_of_drop hDrop, if_true,
        List.length_nil, Nat.add_zero]
  | @plain byte content control quote slash ascii tail ih =>
      obtain ⟨rounds, rfl⟩ := Nat.exists_eq_add_one.mpr (Nat.zero_lt_of_lt hRounds)
      rw [List.cons_append] at hDrop
      have hAscii : ¬(profile = .contractAscii ∧ (byte = 0x5c ∨ byte > 0x7e)) := by
        rintro ⟨hProfile, hSlash | hHigh⟩
        · exact slash hSlash
        · exact ascii hProfile hHigh
      simp only [scanStringFrom, lt_length_of_drop hDrop, byteAt_of_drop hDrop, if_true,
        if_neg quote, if_neg control, if_neg hAscii, if_neg slash]
      rw [ih (drop_succ_of_drop hDrop) (by simpa using hRounds), List.length_cons]
      congr 1
      omega
  | @escaped byte content escapes tail ih =>
      obtain ⟨rounds, rfl⟩ := Nat.exists_eq_add_one.mpr (Nat.zero_lt_of_lt hRounds)
      rw [List.cons_append, List.cons_append] at hDrop
      have hNext := drop_succ_of_drop hDrop
      simp only [List.length_cons] at hRounds
      simp only [scanStringFrom, lt_length_of_drop hDrop, byteAt_of_drop hDrop, if_true, escapes,
        false_and, if_false, lt_length_of_drop hNext]
      rw [if_neg (by decide), if_neg (by decide)]
      rw [ih (drop_succ_of_drop hNext) (by omega), List.length_cons, List.length_cons]
      congr 1
      omega

/-! ### Contents of the grammar -/

/-- The digits of an escape are pieces by themselves. -/
theorem Grammar.CodeUnit.plain {digits : Bytes} {unit : Nat} (h : CodeUnit digits unit) :
    ∀ byte ∈ digits, ¬byte < 0x20 ∧ byte ≠ 0x22 ∧ byte ≠ 0x5c := by
  obtain ⟨a, b, c, d, p, q, r, s, rfl, ha, hb, hc, hd, -⟩ := h
  have hPlain {byte : UInt8} {value : Nat} (h : HexDigit byte value) :
      ¬byte < 0x20 ∧ byte ≠ 0x22 ∧ byte ≠ 0x5c := by
    refine ⟨fun hLt => ?_, h.plain.2⟩
    have := h.plain.1
    simp only [UInt8.lt_iff_toNat_lt, UInt8.reduceToNat] at hLt
    omega
  intro byte hByte
  simp only [List.mem_cons, List.not_mem_nil, or_false] at hByte
  rcases hByte with rfl | rfl | rfl | rfl
  · exact hPlain ha
  · exact hPlain hb
  · exact hPlain hc
  · exact hPlain hd

theorem unescaped_iff (c : Char) :
    Unescaped c ↔ NotEscape c ∧ ∀ byte ∈ String.utf8EncodeChar c, ¬byte < 0x20 ∧ byte ≠ 0x22 := by
  constructor
  · rintro ⟨hLow, hQuote, hSlash⟩
    refine ⟨hSlash, fun byte hByte => ⟨fun hLt => ?_, ?_⟩⟩
    · simp only [UInt8.lt_iff_toNat_lt, UInt8.reduceToNat] at hLt
      rcases mem_encodeChar hByte with h | ⟨h, -⟩ <;> omega
    · exact ne_of_mem_encodeChar (by decide) hQuote hByte
  · rintro ⟨hSlash, h⟩
    refine ⟨?_, ?_, hSlash⟩
    · by_contra hLow
      have hByte := h (.ofNat c.val.toNat)
        (by rw [encode_one (by omega)]; exact List.mem_singleton.mpr rfl)
      simp only [UInt8.lt_iff_toNat_lt, UInt8.reduceToNat,
        toNat_ofNat_of_lt (show c.val.toNat < 256 by omega)] at hByte
      exact hLow (by omega)
    · intro hQuote
      refine (h 0x22 ?_).2 rfl
      rw [encode_one (by omega), hQuote]
      decide

/-- The escapes of a unit are one piece and their digits. -/
theorem UnitTail.pieces (hProfile : profile ≠ .contractAscii) {escape : UInt8}
    {tail decoded rest : Bytes} (h : UnitTail escape tail decoded) :
    Pieces profile (0x5c :: escape :: tail ++ rest) ↔ Pieces profile rest := by
  have hDigits {digits rest : Bytes} {unit : Nat} (h : CodeUnit digits unit) :
      Pieces profile (digits ++ rest) ↔ Pieces profile rest :=
    ⟨fun hPieces => (hPieces.split fun byte hByte => (h.plain byte hByte).2.2).2,
      (Pieces.of_plain fun byte hByte => ⟨(h.plain byte hByte).1, (h.plain byte hByte).2.1,
        (h.plain byte hByte).2.2, fun hAscii => absurd hAscii hProfile⟩).append⟩
  have hEscape {escape : UInt8} {rest : Bytes} :
      Pieces profile (0x5c :: escape :: rest) ↔ Pieces profile rest := by
    refine ⟨fun hPieces => ?_, .escaped hProfile⟩
    cases hPieces with
    | plain control quote slash ascii tail => exact absurd rfl slash
    | escaped escapes tail => exact tail
  rw [List.cons_append, List.cons_append, hEscape]
  cases h with
  | simple escapes => exact Iff.rfl
  | point c unit nonzero => exact hDigits unit
  | pair c high low highRange lowRange value =>
      rw [List.append_assoc, List.append_assoc, hDigits high]
      exact hEscape.trans (hDigits low)

/-- Units are spelled without control characters and quotation marks exactly
when the scan passes over them. -/
theorem stringUnits_unescaped_iff (hProfile : profile ≠ .contractAscii) (content text : Bytes) :
    StringUnits Unescaped content text ↔ Pieces profile content ∧
      StringUnits NotEscape content text := by
  constructor
  · intro h
    refine ⟨?_, h.mono fun c hc => hc.2.2⟩
    induction h with
    | nil => exact .nil
    | cons head tail ih =>
        rcases head.cases_head with ⟨c, hc, rfl, -⟩ | ⟨escape, tail, rfl, hTail⟩
        · refine Pieces.append (.of_plain fun byte hByte => ?_) ih
          have hPlain := ((unescaped_iff c).mp hc).2 byte hByte
          exact ⟨hPlain.1, hPlain.2, ne_of_mem_encodeChar (by decide) hc.2.2 hByte,
            fun hAscii => absurd hAscii hProfile⟩
        · exact (hTail.pieces hProfile).mpr ih
  · rintro ⟨hPieces, h⟩
    induction h with
    | nil => exact .nil
    | cons head tail ih =>
        rcases head.cases_head with ⟨c, hc, rfl, rfl⟩ | ⟨escape, tail, rfl, hTail⟩
        · obtain ⟨hPlain, hRest⟩ :=
            hPieces.split fun byte hByte => ne_of_mem_encodeChar (by decide) hc hByte
          refine .cons (.scalar c ((unescaped_iff c).mpr ⟨hc, fun byte hByte => ?_⟩)) (ih hRest)
          exact ⟨(hPlain byte hByte).1, (hPlain byte hByte).2.1⟩
        · exact .cons hTail.unit (ih ((hTail.pieces hProfile).mp hPieces))

theorem decodeStringFrom_ascii (bytes : Bytes) (rounds input : Nat) (out text : Bytes)
    (hInput : input ≤ bytes.length) (hRounds : bytes.length < rounds + input) :
    decodeStringFrom bytes .contractAscii rounds input out = .ok text ↔
      (∀ byte ∈ bytes.drop input, ¬(byte < 0x20 ∨ byte > 0x7e ∨ byte = 0x5c)) ∧
        text = out ++ bytes.drop input := by
  induction rounds generalizing input out with
  | zero => omega
  | succ rounds ih =>
      rw [decodeStringFrom]
      by_cases hEnd : input < bytes.length
      · rw [drop_eq_byteAt_cons hEnd, List.forall_mem_cons]
        simp only [if_pos hEnd, if_true]
        split_ifs with hByte
        · exact ⟨(by simp), fun h => absurd hByte h.1.1⟩
        · rw [ih _ _ (by omega) (by omega), List.append_assoc]
          exact ⟨fun h => ⟨⟨hByte, h.1⟩, h.2⟩, fun h => ⟨h.1.2, h.2⟩⟩
      · rw [if_neg hEnd, List.drop_eq_nil_of_le (by omega), List.append_nil]
        exact ⟨fun h => ⟨fun _ h => absurd h List.not_mem_nil, (Except.ok.inj h).symm⟩,
          fun h => by rw [h.2]⟩

/-- The contents of the grammar are what the scan passes over and the decoder accepts. -/
theorem content_iff (profile : Profile) (content text : Bytes) :
    Content profile content text ↔
      Pieces profile content ∧ decodeString content profile = .ok text := by
  by_cases hProfile : profile = .contractAscii
  · subst hProfile
    rw [Content, if_pos rfl, decodeString,
      decodeStringFrom_ascii content _ 0 [] text (Nat.zero_le _) (by omega), List.drop_zero,
      List.nil_append]
    constructor
    · rintro ⟨hPlain, rfl⟩
      refine ⟨.of_plain fun byte hByte => ?_, fun byte hByte => ?_, rfl⟩
      · obtain ⟨hLow, hHigh, hQuote, hSlash⟩ := hPlain byte hByte
        exact ⟨UInt8.not_lt.mpr hLow, hQuote, hSlash, fun _ => UInt8.not_lt.mpr hHigh⟩
      · obtain ⟨hLow, hHigh, hQuote, hSlash⟩ := hPlain byte hByte
        rintro (h | h | h)
        · exact UInt8.not_lt.mpr hLow h
        · exact UInt8.not_lt.mpr hHigh h
        · exact hSlash h
    · rintro ⟨hPieces, hPlain, rfl⟩
      refine ⟨fun byte hByte => ?_, rfl⟩
      have hBytes := (@Pieces.split _ _ [] (by rwa [List.append_nil])
        fun byte hByte h => hPlain byte hByte (Or.inr (Or.inr h))).1 byte hByte
      simp only [not_or] at hPlain
      exact ⟨UInt8.not_lt.mp hBytes.1, UInt8.not_lt.mp (hBytes.2.2 rfl), hBytes.2.1,
        (hPlain byte hByte).2.2⟩
  · rw [Content, if_neg hProfile, decodeString_iff _ _ hProfile, stringUnits_unescaped_iff hProfile]

/-! ### The tolerant profile reads strings as the strict one does -/

theorem scanStringFrom_lastWins (bytes : Bytes) (rounds offset : Nat) :
    scanStringFrom .rfc8259LastWins bytes rounds offset =
      scanStringFrom .rfc8259 bytes rounds offset := by
  induction rounds generalizing offset with
  | zero => rfl
  | succ rounds ih => simp only [scanStringFrom, ih, reduceCtorEq, false_and, if_false]

theorem decodeString_lastWins (bytes : Bytes) :
    decodeString bytes .rfc8259LastWins = decodeString bytes .rfc8259 := by
  have h (rounds input : Nat) (out : Bytes) :
      decodeStringFrom bytes .rfc8259LastWins rounds input out =
        decodeStringFrom bytes .rfc8259 rounds input out := by
    induction rounds generalizing input out with
    | zero => rfl
    | succ rounds ih => simp only [decodeStringFrom, ih, reduceCtorEq, if_false]
  exact h _ _ _

theorem content_lastWins (content text : Bytes) :
    Content .rfc8259LastWins content text ↔ Content .rfc8259 content text := Iff.rfl

end MaelysJson
