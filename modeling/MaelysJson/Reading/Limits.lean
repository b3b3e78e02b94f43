import MaelysJson.Reading.Language

/-! Two readings of one text under limits of which one pair lies below the other: the
tighter reading goes the way of the wider one until a limit stops it. -/
namespace MaelysJson

open Run

namespace Reading

/-- The first reading ends like the second, unless a limit has stopped it. -/
def Cuts {α : Type} (tight wide : ReadM α) : Prop :=
  ∀ place, match tight place with
    | .ok a next => wide place = .ok a next
    | .error fault next => fault.code = .errLimit ∨ wide place = .error fault next

namespace Cuts

variable {α β : Type} {x y : ReadM α}

theorem refl (x : ReadM α) : Cuts x x := by
  intro place
  cases x place with
  | ok a next => rfl
  | error fault next => exact Or.inr rfl

theorem of_refuse {offset : Nat} : Cuts (refuse .errLimit offset) y := fun _ => Or.inl rfl

theorem bind_of {f g : α → ReadM β} (h : Cuts x y)
    (hf : ∀ place a next, x place = .ok a next → Cuts (f a) (g a)) : Cuts (x >>= f) (y >>= g) := by
  intro place
  have hRun := h place
  rw [bind_eq, bind_eq]
  cases hx : x place with
  | ok a next =>
      rw [hx] at hRun
      rw [hRun]
      exact hf place a next hx next
  | error fault next =>
      rw [hx] at hRun
      rcases hRun with hLimit | hRun
      · exact Or.inl hLimit
      · rw [hRun]
        exact Or.inr rfl

theorem bind {f g : α → ReadM β} (h : Cuts x y) (hf : ∀ a, Cuts (f a) (g a)) :
    Cuts (x >>= f) (y >>= g) := h.bind_of fun _ a _ _ => hf a

/-- The place is read first: what follows may depend on it. -/
theorem of_place {f g : Place → ReadM α} (h : ∀ place, Cuts (f place) (g place)) :
    Cuts (get >>= f) (get >>= g) := bind (refl _) h

theorem ite {c : Prop} [Decidable c] {x' y' : ReadM α} (h : Cuts x y) (h' : Cuts x' y') :
    Cuts (if c then x else x') (if c then y else y') := by
  by_cases hc : c
  · rwa [if_pos hc, if_pos hc]
  · rwa [if_neg hc, if_neg hc]

theorem within (h : Cuts x y) (step : Step) :
    Cuts (Reading.within step x) (Reading.within step y) := by
  intro place
  have hRun := h place
  rw [Reading.within, Reading.within]
  cases hx : x place with
  | ok a next =>
      rw [hx] at hRun
      rw [hRun]
  | error fault next =>
      rw [hx] at hRun
      rcases hRun with hLimit | hRun
      · exact Or.inl hLimit
      · rw [hRun]
        exact Or.inr rfl

end Cuts

/-- The same text, read under other bounds. -/
def bounded (r : Reading) (maximumDepth capacity : Nat) : Reading :=
  { r with maximumDepth, capacity }

variable {r : Reading} {place : Place} {maximumDepth capacity : Nat}

/-! ### The parts of a reading -/

theorem takeToken_cuts (hCapacity : r.capacity ≤ capacity) (start : Nat) :
    Cuts (r.takeToken start) ((r.bounded maximumDepth capacity).takeToken start) := by
  intro place
  rw [takeToken, takeToken]
  by_cases hFull : place.count ≥ r.capacity
  · rw [if_pos hFull]
    exact Or.inl rfl
  · have hRoom : ¬place.count ≥ (r.bounded maximumDepth capacity).capacity := by
      simp only [bounded]
      omega
    rw [if_neg hFull, if_neg hRoom]

theorem readString_refused {offset : Nat}
    (hQuote : ¬(r.atEnd place = true ∨ r.current place ≠ 0x22))
    (hScan : scanStringFrom r.profile r.bytes (r.bytes.length + 1) (place.offset + 1) =
      .refused offset) :
    r.readString place = refuse .errSyntax offset place := by
  simp only [readString, if_neg hQuote, hScan]

theorem readString_unterminated {offset : Nat}
    (hQuote : ¬(r.atEnd place = true ∨ r.current place ≠ 0x22))
    (hScan : scanStringFrom r.profile r.bytes (r.bytes.length + 1) (place.offset + 1) =
      .unterminated offset) :
    r.readString place = refuse .errSyntax place.offset place := by
  simp only [readString, if_neg hQuote, hScan]

theorem readString_quoted (hQuote : ¬(r.atEnd place = true ∨ r.current place ≠ 0x22)) :
    r.readString place =
      match scanStringFrom r.profile r.bytes (r.bytes.length + 1) (place.offset + 1) with
      | .refused offset => refuse .errSyntax offset place
      | .unterminated _ => refuse .errSyntax place.offset place
      | .closed stop =>
          if place.count ≥ r.capacity then refuse .errLimit (place.offset + 1) place
          else match decodeString (r.content (place.offset + 1) stop) r.profile with
            | .error (code, bad) => refuse code (place.offset + 1 + bad) place
            | .ok text => .ok ⟨⟨place.offset + 1, stop⟩, text⟩ ⟨stop + 1, place.count + 1⟩ := by
  exact if_neg hQuote

theorem readString_closed {stop : Nat} (hQuote : ¬(r.atEnd place = true ∨ r.current place ≠ 0x22))
    (hScan : scanStringFrom r.profile r.bytes (r.bytes.length + 1) (place.offset + 1) =
      .closed stop) :
    r.readString place =
      if place.count ≥ r.capacity then refuse .errLimit (place.offset + 1) place
      else match decodeString (r.content (place.offset + 1) stop) r.profile with
        | .error (code, bad) => refuse code (place.offset + 1 + bad) place
        | .ok text => .ok ⟨⟨place.offset + 1, stop⟩, text⟩ ⟨stop + 1, place.count + 1⟩ := by
  rw [readString_quoted hQuote, hScan]

theorem readPrimitive_some {value : Source}
    (hValue : primitive ⟨place.offset, primitiveEnd r.bytes place.offset⟩
      (r.content place.offset (primitiveEnd r.bytes place.offset)) = some value) :
    r.readPrimitive place =
      if place.count ≥ r.capacity then refuse .errLimit place.offset place
      else .ok value ⟨primitiveEnd r.bytes place.offset, place.count + 1⟩ := by
  simp only [readPrimitive, hValue]

/-- Where the two readings do the same and no limit is involved. -/
theorem cuts_of_eq {α : Type} {x y : ReadM α} (h : y place = x place) :
    match x place with
    | .ok a next => y place = .ok a next
    | .error fault next => fault.code = .errLimit ∨ y place = .error fault next := by
  rw [h]
  exact Cuts.refl x place

theorem readString_cuts (hCapacity : r.capacity ≤ capacity) :
    Cuts r.readString (r.bounded maximumDepth capacity).readString := by
  intro place
  have hBounded := @readString_closed (r.bounded maximumDepth capacity) place
  by_cases hQuote : r.atEnd place = true ∨ r.current place ≠ 0x22
  · have hOpening (r : Reading) (hQuote : r.atEnd place = true ∨ r.current place ≠ 0x22) :
        r.readString place = refuse .errSyntax place.offset place := by
      simp only [readString, if_pos hQuote]
    exact cuts_of_eq ((hOpening (r.bounded maximumDepth capacity) hQuote).trans
      (hOpening r hQuote).symm)
  cases hScan : scanStringFrom r.profile r.bytes (r.bytes.length + 1) (place.offset + 1) with
  | refused offset =>
      exact cuts_of_eq ((@readString_refused (r.bounded maximumDepth capacity) place _ hQuote
        hScan).trans (readString_refused hQuote hScan).symm)
  | unterminated offset =>
      exact cuts_of_eq ((@readString_unterminated (r.bounded maximumDepth capacity) place _ hQuote
        hScan).trans (readString_unterminated hQuote hScan).symm)
  | closed stop =>
      by_cases hFull : place.count ≥ r.capacity
      · rw [readString_closed hQuote hScan, if_pos hFull]
        exact Or.inl rfl
      · have hRoom : ¬place.count ≥ (r.bounded maximumDepth capacity).capacity := by
          simp only [bounded]
          omega
        refine cuts_of_eq ?_
        rw [readString_closed hQuote hScan, hBounded hQuote hScan, if_neg hFull, if_neg hRoom]
        rfl

theorem readKey_cuts (hCapacity : r.capacity ≤ capacity) (seen : List Bytes) :
    Cuts (r.readKey seen) ((r.bounded maximumDepth capacity).readKey seen) := by
  intro place
  have hString := @readString_cuts r maximumDepth capacity hCapacity place
  have hProfile : (r.bounded maximumDepth capacity).profile = r.profile := rfl
  rw [readKey, readKey, hProfile]
  cases hRead : r.readString place with
  | ok key next =>
      rw [hRead] at hString
      rw [hString]
      by_cases hSeen : r.profile ≠ .rfc8259LastWins ∧ key.text ∈ seen
      · simp only [if_pos hSeen]
        exact Cuts.refl (refuse .errDuplicateKey place.offset) place
      · simp only [if_neg hSeen]
  | error fault next =>
      rw [hRead] at hString
      rcases hString with hLimit | hString
      · exact Or.inl hLimit
      · rw [hString]
        exact Or.inr rfl

theorem readPrimitive_cuts (hCapacity : r.capacity ≤ capacity) :
    Cuts r.readPrimitive (r.bounded maximumDepth capacity).readPrimitive := by
  intro place
  cases hValue : primitive ⟨place.offset, primitiveEnd r.bytes place.offset⟩
      (r.content place.offset (primitiveEnd r.bytes place.offset)) with
  | none =>
      have hNone (r : Reading) (hValue : primitive ⟨place.offset, primitiveEnd r.bytes place.offset⟩
          (r.content place.offset (primitiveEnd r.bytes place.offset)) = none) :
          r.readPrimitive place = refuse .errSyntax place.offset place := by
        simp only [readPrimitive, hValue]
      exact cuts_of_eq ((hNone (r.bounded maximumDepth capacity) hValue).trans
        (hNone r hValue).symm)
  | some value =>
      rw [readPrimitive_some hValue,
        @readPrimitive_some (r.bounded maximumDepth capacity) place value hValue]
      by_cases hFull : place.count ≥ r.capacity
      · rw [if_pos hFull]
        exact Or.inl rfl
      · have hRoom : ¬place.count ≥ (r.bounded maximumDepth capacity).capacity := by
          simp only [bounded]
          omega
        rw [if_neg hFull, if_neg hRoom]
        rfl

theorem openContainer_cuts (hDepth : r.maximumDepth ≤ maximumDepth)
    (hCapacity : r.capacity ≤ capacity) (depth : Nat) (closing : UInt8) :
    Cuts (r.openContainer depth closing)
      ((r.bounded maximumDepth capacity).openContainer depth closing) := by
  refine Cuts.of_place fun place => ?_
  by_cases hDeep : depth ≥ r.maximumDepth
  · rw [if_pos hDeep]
    exact Cuts.of_refuse
  · have hShallow : ¬depth ≥ (r.bounded maximumDepth capacity).maximumDepth := by
      simp only [bounded]
      omega
    rw [if_neg hDeep, if_neg hShallow]
    exact (takeToken_cuts hCapacity _).bind fun _ => Cuts.refl _

/-! ### Containers -/

theorem readItem_cuts {x y : ReadM Source} (h : Cuts x y) (closing : UInt8) (step : Step) :
    Cuts (r.readItem x closing step) ((r.bounded maximumDepth capacity).readItem y closing step) :=
  (h.bind fun _ => Cuts.refl _).within step

theorem readMembers_cuts (hCapacity : r.capacity ≤ capacity) {x y : ReadM Source} (h : Cuts x y)
    (rounds : Nat) (seen : List Bytes) :
    Cuts (r.readMembers x rounds seen)
      ((r.bounded maximumDepth capacity).readMembers y rounds seen) := by
  induction rounds generalizing seen with
  | zero => exact Cuts.refl _
  | succ rounds ih =>
      refine (readKey_cuts hCapacity seen).bind fun key => (Cuts.refl _).bind fun _ => ?_
      refine (Cuts.refl _).bind fun _ => (readItem_cuts h _ _).bind fun item => ?_
      obtain ⟨value, closed⟩ := item
      cases closed with
      | true => exact Cuts.refl _
      | false => exact (ih (key.text :: seen)).bind fun rest => Cuts.refl _

theorem readElements_cuts {x y : ReadM Source} (h : Cuts x y) (rounds position : Nat) :
    Cuts (r.readElements x rounds position)
      ((r.bounded maximumDepth capacity).readElements y rounds position) := by
  induction rounds generalizing position with
  | zero => exact Cuts.refl _
  | succ rounds ih =>
      refine (readItem_cuts h _ _).bind fun item => ?_
      obtain ⟨value, closed⟩ := item
      cases closed with
      | true => exact Cuts.refl _
      | false => exact (ih (position + 1)).bind fun rest => Cuts.refl _

theorem readObject_cuts (hDepth : r.maximumDepth ≤ maximumDepth) (hCapacity : r.capacity ≤ capacity)
    {x y : ReadM Source} {depth : Nat} (h : depth < r.maximumDepth → Cuts x y) :
    Cuts (r.readObject x depth) ((r.bounded maximumDepth capacity).readObject y depth) := by
  refine Cuts.of_place fun place => ?_
  refine (openContainer_cuts hDepth hCapacity depth 0x7d).bind_of fun _ closed _ hOpen => ?_
  cases closed with
  | true => exact Cuts.refl _
  | false =>
      exact (readMembers_cuts hCapacity (h (openContainer_depth hOpen)) _ _).bind fun _ =>
        Cuts.refl _

theorem readArray_cuts (hDepth : r.maximumDepth ≤ maximumDepth) (hCapacity : r.capacity ≤ capacity)
    {x y : ReadM Source} {depth : Nat} (h : depth < r.maximumDepth → Cuts x y) :
    Cuts (r.readArray x depth) ((r.bounded maximumDepth capacity).readArray y depth) := by
  refine Cuts.of_place fun place => ?_
  refine (openContainer_cuts hDepth hCapacity depth 0x5d).bind_of fun _ closed _ hOpen => ?_
  cases closed with
  | true => exact Cuts.refl _
  | false => exact (readElements_cuts (h (openContainer_depth hOpen)) _ _).bind fun _ => Cuts.refl _

/-! ### Values and whole texts -/

theorem readValue_cuts (hDepth : r.maximumDepth ≤ maximumDepth) (hCapacity : r.capacity ≤ capacity)
    (fuel fuel' depth : Nat) (hFuel : depth + fuel = r.maximumDepth + 1)
    (hFuel' : depth + fuel' = maximumDepth + 1) (hStart : depth ≤ r.maximumDepth) :
    Cuts (r.readValue fuel depth) ((r.bounded maximumDepth capacity).readValue fuel' depth) := by
  induction fuel generalizing fuel' depth with
  | zero => omega
  | succ fuel ih =>
      obtain ⟨fuel', rfl⟩ : ∃ n, fuel' = n + 1 := ⟨fuel' - 1, by omega⟩
      have hItem : depth < r.maximumDepth →
          Cuts (r.readValue fuel (depth + 1))
            ((r.bounded maximumDepth capacity).readValue fuel' (depth + 1)) :=
        fun hLt => ih fuel' (depth + 1) (by omega) (by omega) hLt
      refine (Cuts.refl r.readSpace).bind fun _ => Cuts.of_place fun place => ?_
      refine Cuts.ite (Cuts.refl _) (Cuts.ite (readObject_cuts hDepth hCapacity hItem) ?_)
      refine Cuts.ite (readArray_cuts hDepth hCapacity hItem)
        (Cuts.ite ?_ (readPrimitive_cuts hCapacity))
      exact (readString_cuts hCapacity).bind fun _ => Cuts.refl _

theorem readText_wide : (r.bounded maximumDepth capacity).readText =
    match (r.bounded maximumDepth capacity).readValue (maximumDepth + 1) 0 ⟨0, 0⟩ with
    | .error fault _ => .error fault
    | .ok value place =>
        if spaceEnd r.bytes place.offset ≠ r.bytes.length then
          .error ⟨.errSyntax, spaceEnd r.bytes place.offset, []⟩
        else .ok value := rfl

/-- Wider bounds change nothing but a limit. -/
theorem readText_bounded (hDepth : r.maximumDepth ≤ maximumDepth)
    (hCapacity : r.capacity ≤ capacity) :
    (∃ fault, r.readText = .error fault ∧ fault.code = .errLimit) ∨
      (r.bounded maximumDepth capacity).readText = r.readText := by
  have hValue := readValue_cuts hDepth hCapacity (r.maximumDepth + 1) (maximumDepth + 1)
    0 (by omega) (by omega) (Nat.zero_le _) ⟨0, 0⟩
  rw [readText_wide, readText]
  cases hRead : r.readValue (r.maximumDepth + 1) 0 ⟨0, 0⟩ with
  | ok value next =>
      rw [hRead] at hValue
      rw [hValue]
      exact Or.inr rfl
  | error fault next =>
      rw [hRead] at hValue
      rcases hValue with hLimit | hValue
      · exact Or.inl ⟨fault, rfl, hLimit⟩
      · rw [hValue]
        exact Or.inr rfl

end Reading

/-! ### Parsing under two limits -/

theorem tokenCapacityFor_mono {size : Nat} {limits limits' : Limits}
    (hTokens : limits.maximumTokens ≤ limits'.maximumTokens) :
    tokenCapacityFor size limits ≤ tokenCapacityFor size limits' := by
  rw [tokenCapacityFor, tokenCapacityFor]
  split_ifs <;> omega

/-- Limits only cut: a parse that no limit has stopped ends the same under wider limits,
with the same error position or with the same value. -/
theorem documentParse_limits {heap heap' : Heap} (hHeap : heap.Generous) (hHeap' : heap'.Generous)
    {bytes : Bytes} {profile : Profile} {requested requested' : Option Limits}
    {limits limits' : Limits} {bound bound' : Nat} (hLimits : limitsResolve requested = .ok limits)
    (hLimits' : limitsResolve requested' = .ok limits')
    (hTokens : limits.maximumTokens ≤ limits'.maximumTokens)
    (hDepth : limits.maximumDepth ≤ limits'.maximumDepth)
    (hBound : documentParseAllocationBound bytes.length profile requested = .ok bound)
    (hBound' : documentParseAllocationBound bytes.length profile requested' = .ok bound')
    (errorGiven : Bool)
    (hResult : (documentParse heap (.buffer bytes) profile requested errorGiven).result ≠
      .errLimit) :
    let parsed := documentParse heap (.buffer bytes) profile requested errorGiven
    let parsed' := documentParse heap' (.buffer bytes) profile requested' errorGiven
    parsed'.result = parsed.result ∧ parsed'.error = parsed.error ∧
      (parsed.result = .ok → ∃ document document' t, parsed.document = some document ∧
        parsed'.document = some document' ∧ documentTree document = .ok t ∧
        documentTree document' = .ok t ∧ document'.duplicateCount = document.duplicateCount) := by
  intro parsed parsed'
  have hSize := documentParseAllocationBound_size hLimits hBound
  have hSize' := documentParseAllocationBound_size hLimits' hBound'
  have hRun := documentParse_reads hHeap hLimits hSize hBound errorGiven
  have hRun' := documentParse_reads hHeap' hLimits' hSize' hBound' errorGiven
  have hWide : (readingOf bytes profile limits').readText =
      (readingOf bytes profile limits).readText := by
    have hCuts := @Reading.readText_bounded (readingOf bytes profile limits) limits'.maximumDepth
      (tokenCapacityFor bytes.length limits') hDepth (tokenCapacityFor_mono hTokens)
    rcases hCuts with ⟨fault, hFault, hLimit⟩ | hSame
    · rw [hFault] at hRun
      obtain ⟨heap₁, hParse⟩ := hRun
      rw [hParse] at hResult
      exact absurd hLimit hResult
    · exact hSame
  rw [hWide] at hRun'
  cases hRead : (readingOf bytes profile limits).readText with
  | error fault =>
      rw [hRead] at hRun hRun'
      obtain ⟨heap₁, hParse⟩ := hRun
      obtain ⟨heap₂, hParse'⟩ := hRun'
      have hCode := (Reading.readText_reports hRead).ne.1
      simp only [parsed, parsed', hParse, hParse']
      exact ⟨trivial, trivial, fun hOk => absurd hOk hCode⟩
  | ok s =>
      obtain ⟨hText, hAcceptable⟩ := (readText_iff_acceptable hLimits s.json).mp ⟨s, hRead, rfl⟩
      obtain ⟨-, hAcceptable'⟩ :=
        (readText_iff_acceptable hLimits' s.json).mp ⟨s, hWide.trans hRead, rfl⟩
      obtain ⟨document, heap₁, survivor, hParse, hPublished, hJson, -, -, hCount⟩ :=
        documentParse_ok hHeap hLimits hSize hBound errorGiven hText hAcceptable
      obtain ⟨document', heap₂, survivor', hParse', hPublished', hJson', -, -, hCount'⟩ :=
        documentParse_ok hHeap' hLimits' hSize' hBound' errorGiven hText hAcceptable'
      simp only [parsed, parsed', hParse, hParse']
      refine ⟨trivial, trivial,
        fun _ => ⟨document, document', s.json.lastWins, rfl, rfl, ?_, ?_, ?_⟩⟩
      · rw [documentTree_eq hPublished, hJson]
      · rw [documentTree_eq hPublished', hJson']
      · rw [hCount, hCount']

/-- The text `[0]` under the smallest limits that hold it and under the default ones. -/
theorem documentParse_limits_array :
    (documentParse ⟨fun _ => true, []⟩ (.buffer [0x5b, 0x30, 0x5d]) .rfc8259 none true).result =
      .ok := by
  have hResult : (documentParse ⟨fun _ => true, []⟩ (.buffer [0x5b, 0x30, 0x5d]) .rfc8259
      (some ⟨3, 1, 2⟩) true).result = .ok := by decide +kernel
  have h := @documentParse_limits ⟨fun _ => true, []⟩ ⟨fun _ => true, []⟩ (fun _ => rfl)
    (fun _ => rfl) [0x5b, 0x30, 0x5d] .rfc8259 (some ⟨3, 1, 2⟩) none ⟨3, 1, 2⟩ ⟨65535, 32, 8192⟩ 370
    475 (by decide) (by decide) (by decide) (by decide) (by decide) (by decide) true
    (by rw [hResult]; nofun)
  exact h.1.trans hResult

end MaelysJson
