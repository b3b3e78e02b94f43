import MaelysJson.Reading.Repeats

/-! The compaction of superseded members: the measuring walk and the copying walk
go through the same rows, those of the value with its last occurrences only. -/
namespace MaelysJson

open Forest

/-- The target of a compaction holds, or has counted, the tokens of `rows`. -/
structure Packed.Packs (target : Packed) (source : Document) (rows : List (Row Cell)) : Prop where
  count : target.tokenCount = rows.length
  used : target.arenaUsed = (arenaOf rows).length
  shows : ∀ tokens, target.tokens = some tokens →
    Document.Shows { source with tokens, arena := target.arena } rows

/-- The marks of a table are those of the keys that come again. -/
def Document.Marks (document : Document) (rows : List (Row Cell)) : Prop :=
  ∀ i, (document.token i).superseded = true ↔ Superseded rows i

variable {source : Document} {rows : List (Row Cell)}

/-! ### One token -/

theorem Packed.Packs.take {target : Packed} {packed : List (Row Cell)}
    (h : target.Packs source packed) (hShows : source.Shows rows) {i : Nat}
    {old parent : Option Nat} {cell : Cell} (hRow : rows[i]? = some (old, cell))
    (hParent : ∀ p, parent = some p → p < packed.length) :
    (target.take source i parent).Packs source (packed ++ [(parent, cell)]) ∧
      (target.take source i parent).tokens.isSome = target.tokens.isSome := by
  have hText := hShows.text hRow
  have hSize := hShows.textSize hRow
  have hCellText : source.textBytes (source.token i) = cellText cell := by
    rw [Document.textBytes, hText, hSize]
    cases hCell : cell.text with
    | none => rw [cellText, hCell]; rfl
    | some text =>
        simp only [Option.map_some, hShows.drop_arena hRow, cellText, hCell, Option.getD_some]
        exact List.take_left' (by simp)
  have hUsed : (source.token i).textRoom = (cellText cell).length := by
    rw [Token.textRoom, hText, hSize]
    cases hCell : cell.text with
    | none => rw [cellText, hCell]; rfl
    | some text => rw [cellText, hCell]; simp
  have hCount : target.tokenCount + 1 = (packed ++ [(parent, cell)]).length := by
    rw [h.count, List.length_append, List.length_singleton]
  have hArena : target.arenaUsed + (cellText cell).length =
      (arenaOf (packed ++ [(parent, cell)])).length := by
    rw [h.used, arenaOf_append, arenaOf_singleton, List.length_append]
  cases hTokens : target.tokens with
  | none =>
      simp only [Packed.take, hTokens, hUsed]
      exact ⟨⟨hCount, hArena, (by simp)⟩, trivial⟩
  | some tokens =>
      simp only [Packed.take, hTokens, hUsed, hCellText]
      refine ⟨⟨hCount, hArena, ?_⟩, rfl⟩
      rintro _ ⟨rfl⟩
      have hLength : target.tokenCount = tokens.length := by
        rw [h.count, ← (h.shows tokens hTokens).length]
      have hCore : Token.core
          { source.token i with
            links := .init parent
            text := (source.token i).text.map fun _ => target.arenaUsed } =
          rowToken (arenaOf packed).length (parent, cell) := by
        have := hShows.core hRow
        rw [Token.core, rowToken, Token.mk.injEq] at this
        rw [Token.core, rowToken, Token.mk.injEq]
        refine ⟨rfl, this.2.1, this.2.2.1, this.2.2.2.1, ?_, this.2.2.2.2.2⟩
        rw [hText, Option.map_map, h.used]
        rfl
      have hConcat := (h.shows tokens hTokens).concat parent cell rfl hCore hParent
      rw [hLength]
      cases parent <;> exact hConcat

/-! ### The rows of members and elements -/

theorem row_of_child {i j : Nat} {cell : Cell} {kids : List (Rose Cell)}
    (hChild : j ∈ children (rows.map Prod.fst) i) (hAt : Rose.At rows (.node cell kids) j) :
    rows[j]? = some (some i, cell) := by
  obtain ⟨row, hRow, hCell⟩ := Option.map_eq_some_iff.mp hAt.1
  have hParent := (mem_children i).mp hChild
  rw [List.getElem?_map, hRow, Option.map_some, Option.some.injEq] at hParent
  rw [hRow, ← hParent, ← hCell]

theorem children_of_leaf {j : Nat} {cell : Cell} (hAt : Rose.At rows (.node cell []) j) :
    children (rows.map Prod.fst) j = [] := by
  have hKids := Rose.allAt_iff.mp hAt.2
  rwa [List.forall₂_nil_left_iff] at hKids

/-- The trees of an object's children. -/
abbrev memberTrees (members : List (Literal × Source)) : List (Rose Cell) :=
  members.flatMap fun m => [.node (Source.keyCell m.1) [], m.2.rose]

/-- A child of an object that is a key is that of one of its members. -/
theorem key_of_child {members : List (Literal × Source)} {kids : List Nat}
    (hAll : List.Forall₂ (Rose.At rows) (memberTrees members) kids) {j : Nat} (hj : j ∈ kids)
    {row : Row Cell} (hRow : rows[j]? = some row) (hKey : row.2.objectKey = true) :
    ∃ m ∈ members, row.2 = Source.keyCell m.1 := by
  induction members generalizing kids with
  | nil =>
      rw [memberTrees, List.flatMap_nil, List.forall₂_nil_left_iff] at hAll
      rw [hAll] at hj
      cases hj
  | cons m members ih =>
      obtain ⟨k, rest, hKeyAt, hRest, rfl⟩ := List.forall₂_cons_left_iff.mp hAll
      obtain ⟨v, rest', hValueAt, hRest', rfl⟩ := List.forall₂_cons_left_iff.mp hRest
      rw [List.mem_cons, List.mem_cons] at hj
      rcases hj with rfl | rfl | hj
      · have hCell := hKeyAt.1
        rw [hRow, Option.map_some, Option.some.injEq] at hCell
        exact ⟨m, List.mem_cons_self, hCell⟩
      · obtain ⟨cell, kids, hRose, hPlain⟩ := m.2.rose_root
        rw [hRose] at hValueAt
        have hCell := hValueAt.1
        rw [hRow, Option.map_some, Option.some.injEq] at hCell
        rw [hCell, hPlain] at hKey
        cases hKey
      · obtain ⟨m', hm', hCell⟩ := ih hRest' hj
        exact ⟨m', List.mem_cons_of_mem _ hm', hCell⟩

/-- Every member has its key among the children of the object. -/
theorem child_of_key {members : List (Literal × Source)} {kids : List Nat}
    (hAll : List.Forall₂ (Rose.At rows) (memberTrees members) kids) {m : Literal × Source}
    (hm : m ∈ members) :
    ∃ j ∈ kids, Rose.At rows (.node (Source.keyCell m.1) []) j := by
  induction members generalizing kids with
  | nil => cases hm
  | cons m' members ih =>
      obtain ⟨k, rest, hKeyAt, hRest, rfl⟩ := List.forall₂_cons_left_iff.mp hAll
      obtain ⟨v, rest', hValueAt, hRest', rfl⟩ := List.forall₂_cons_left_iff.mp hRest
      rcases List.mem_cons.mp hm with rfl | hm
      · exact ⟨k, List.mem_cons_self, hKeyAt⟩
      · obtain ⟨j, hj, hAt⟩ := ih hRest' hm
        exact ⟨j, List.mem_cons_of_mem _ (List.mem_cons_of_mem _ hj), hAt⟩

/-- The key of a member is superseded when a later member has it. -/
theorem superseded_member {i k v : Nat} {done rest : List Nat} {m : Literal × Source}
    {members : List (Literal × Source)}
    (hSplit : children (rows.map Prod.fst) i = done ++ k :: v :: rest)
    (hKey : Rose.At rows (.node (Source.keyCell m.1) []) k) (hValue : Rose.At rows m.2.rose v)
    (hRest : List.Forall₂ (Rose.At rows) (memberTrees members) rest) :
    Superseded rows k ↔ m.1.text ∈ members.map fun m => m.1.text := by
  have hMem {j : Nat} (hj : j ∈ k :: v :: rest) : j ∈ children (rows.map Prod.fst) i := by
    rw [hSplit]
    exact List.mem_append_right _ hj
  have hSorted := children_sorted i (rows.map Prod.fst)
  rw [hSplit, List.pairwise_append] at hSorted
  have hRowK := row_of_child (hMem List.mem_cons_self) hKey
  rw [superseded_iff, hRowK]
  constructor
  · rintro ⟨key, j, hKeyK, hLt, hKeyJ⟩
    cases hKeyK
    obtain ⟨row, hRow, hRowKey⟩ := Option.bind_eq_some_iff.mp hKeyJ
    rw [rowKey] at hRowKey
    split_ifs at hRowKey with hObjectKey
    obtain ⟨hParent, hText⟩ := KeysetKey.mk.inj (Option.some.inj hRowKey)
    have hChild : j ∈ children (rows.map Prod.fst) i := by
      rw [mem_children, List.getElem?_map, hRow, Option.map_some, hParent]
    -- a later child of the object stands after the key and its value
    rw [hSplit] at hChild
    rcases List.mem_append.mp hChild with hDone | hLater
    · exact absurd (hSorted.2.2 j hDone k List.mem_cons_self) (by omega)
    · have hKeys := List.Forall₂.cons hValue hRest
      have hLater' : j ∈ rest := by
        rcases List.mem_cons.mp hLater with rfl | hLater
        · exact absurd hLt (lt_irrefl _)
        · rcases List.mem_cons.mp hLater with rfl | hLater
          · obtain ⟨cell, kids, hRose, hPlain⟩ := m.2.rose_root
            rw [hRose] at hValue
            have hCell := hValue.1
            rw [hRow, Option.map_some, Option.some.injEq] at hCell
            rw [hCell, hPlain] at hObjectKey
            cases hObjectKey
          · exact hLater
      obtain ⟨m', hm', hCell⟩ := key_of_child hRest hLater' hRow hObjectKey
      rw [hCell] at hText
      exact List.mem_map.mpr ⟨m', hm', hText⟩
  · intro hText
    obtain ⟨m', hm', hEq⟩ := List.mem_map.mp hText
    obtain ⟨j, hj, hAt⟩ := child_of_key hRest hm'
    have hRowJ := row_of_child (hMem (List.mem_cons_of_mem _ (List.mem_cons_of_mem _ hj))) hAt
    refine ⟨⟨some i, m.1.text⟩, j, rfl, ?_, ?_⟩
    · exact (List.pairwise_cons.mp hSorted.2.1).1 j (List.mem_cons_of_mem _ hj)
    · rw [hRowJ, ← hEq]
      rfl

/-! ### The walk -/

theorem compactChildren_members (walk : Nat → Option Nat → Packed → Packed) {i : Nat} (fresh : Nat)
    (hShows : source.Shows rows) (hMarks : source.Marks rows) {done kids : List Nat}
    {members : List (Literal × Source)} (hSplit : children (rows.map Prod.fst) i = done ++ kids)
    (hAll : List.Forall₂ (Rose.At rows) (memberTrees members) kids)
    (hKeys : ∀ key : Literal, ∀ k ∈ kids, Rose.At rows (.node (Source.keyCell key) []) k →
      ∀ target packed, fresh < packed.length → target.Packs source packed →
        (walk k (some fresh) target).Packs source (packed ++ [(some fresh, Source.keyCell key)]) ∧
          (walk k (some fresh) target).tokens.isSome = target.tokens.isSome)
    (hValues : ∀ m ∈ members, ∀ v ∈ kids, Rose.At rows m.2.rose v →
      ∀ target packed, fresh < packed.length → target.Packs source packed →
        (walk v (some fresh) target).Packs source
          (packed ++ m.2.lastWins.rows packed.length (some fresh)) ∧
          (walk v (some fresh) target).tokens.isSome = target.tokens.isSome)
    {rounds : Nat} (hRounds : kids.length ≤ rounds) {target : Packed} {packed : List (Row Cell)}
    (hFresh : fresh < packed.length) (hPacks : target.Packs source packed) :
    (compactChildren walk source fresh rounds kids.head? target).Packs source
        (packed ++ Source.memberRows ((Source.survivors members).map fun m => (m.1, m.2.lastWins))
          packed.length fresh) ∧
      (compactChildren walk source fresh rounds kids.head? target).tokens.isSome =
        target.tokens.isSome := by
  induction members generalizing done kids rounds target packed with
  | nil =>
      rw [memberTrees, List.flatMap_nil, List.forall₂_nil_left_iff] at hAll
      rw [hAll, Source.survivors, List.map_nil, Source.memberRows_nil, List.append_nil]
      cases rounds <;> exact ⟨hPacks, rfl⟩
  | cons m members ih =>
      obtain ⟨k, rest, hKeyAt, hRest, rfl⟩ := List.forall₂_cons_left_iff.mp hAll
      obtain ⟨v, rest', hValueAt, hRest', rfl⟩ := List.forall₂_cons_left_iff.mp hRest
      rw [List.length_cons, List.length_cons] at hRounds
      obtain ⟨rounds, rfl⟩ : ∃ n, rounds = n + 2 := ⟨rounds - 2, by omega⟩
      have hNextK := hShows.nextSibling _ _ _ hSplit
      have hNextV := hShows.nextSibling (done ++ [k]) v rest' (by simpa using hSplit)
      have hIh (rounds : Nat) (hRounds : rest'.length ≤ rounds) {target : Packed}
          {packed : List (Row Cell)} (hFresh : fresh < packed.length)
          (hPacks : target.Packs source packed) :=
        @ih (done ++ [k, v]) rest' (by simpa using hSplit) hRest'
          (fun key k hk => hKeys key k (List.mem_cons_of_mem _ (List.mem_cons_of_mem _ hk)))
          (fun m hm v hv => hValues m (List.mem_cons_of_mem _ hm) v
            (List.mem_cons_of_mem _ (List.mem_cons_of_mem _ hv))) _ hRounds _ _ hFresh hPacks
      have hKChild : k ∈ children (rows.map Prod.fst) i := by rw [hSplit]; simp
      have hRowK := row_of_child hKChild hKeyAt
      have hObjectKey : (source.token k).objectKey = true := hShows.objectKey hRowK
      have hSuperseded := (hMarks k).trans (superseded_member hSplit hKeyAt hValueAt hRest')
      rw [List.head?_cons, compactChildren]
      simp only [hObjectKey, Bool.true_and, hNextK, List.head?_cons, Option.bind_some, hNextV]
      by_cases hLater : m.1.text ∈ members.map fun m => m.1.text
      · -- a superseded member is passed over
        rw [if_pos (hSuperseded.mpr hLater), Source.survivors, if_pos hLater]
        exact hIh _ (by omega) hFresh hPacks
      · rw [if_neg (mt hSuperseded.mp hLater), Source.survivors, if_neg hLater]
        obtain ⟨cell, kids, hRose, hPlain⟩ := m.2.rose_root
        have hVChild : v ∈ children (rows.map Prod.fst) i := by rw [hSplit]; simp
        have hRowV := row_of_child hVChild (hRose ▸ hValueAt)
        have hPlainV : (source.token v).objectKey = false := by rw [hShows.objectKey hRowV, hPlain]
        obtain ⟨hKeyPacks, hKeySome⟩ :=
          hKeys m.1 k List.mem_cons_self hKeyAt target packed hFresh hPacks
        obtain ⟨hValuePacks, hValueSome⟩ := hValues m List.mem_cons_self v
          (List.mem_cons_of_mem _ List.mem_cons_self) hValueAt _ _
          (by rw [List.length_append]; omega) hKeyPacks
        obtain ⟨hRestPacks, hRestSome⟩ := hIh rounds (by omega)
          (by rw [List.length_append, List.length_append]; omega) hValuePacks
        rw [compactChildren]
        simp only [hPlainV, Bool.false_and, Bool.false_eq_true, if_false, hNextV]
        refine ⟨?_, hRestSome.trans (hValueSome.trans hKeySome)⟩
        rw [List.map_cons, Source.append_memberRows_cons]
        rwa [List.length_append, List.length_singleton] at hRestPacks

theorem compactChildren_elements (walk : Nat → Option Nat → Packed → Packed) {i : Nat} (fresh : Nat)
    (hShows : source.Shows rows) {done kids : List Nat} {elements : List Source}
    (hSplit : children (rows.map Prod.fst) i = done ++ kids)
    (hAll : List.Forall₂ (Rose.At rows) (elements.map Source.rose) kids)
    (hValues : ∀ s ∈ elements, ∀ v ∈ kids, Rose.At rows s.rose v →
      ∀ target packed, fresh < packed.length → target.Packs source packed →
        (walk v (some fresh) target).Packs source
          (packed ++ s.lastWins.rows packed.length (some fresh)) ∧
          (walk v (some fresh) target).tokens.isSome = target.tokens.isSome)
    {rounds : Nat} (hRounds : kids.length ≤ rounds) {target : Packed} {packed : List (Row Cell)}
    (hFresh : fresh < packed.length) (hPacks : target.Packs source packed) :
    (compactChildren walk source fresh rounds kids.head? target).Packs source
        (packed ++ Source.elementRows (elements.map Source.lastWins) packed.length fresh) ∧
      (compactChildren walk source fresh rounds kids.head? target).tokens.isSome =
        target.tokens.isSome := by
  induction elements generalizing done kids rounds target packed with
  | nil =>
      rw [List.map_nil, List.forall₂_nil_left_iff] at hAll
      rw [hAll, List.map_nil, Source.elementRows_nil, List.append_nil]
      cases rounds <;> exact ⟨hPacks, rfl⟩
  | cons s elements ih =>
      obtain ⟨v, rest, hAt, hRest, rfl⟩ := List.forall₂_cons_left_iff.mp hAll
      rw [List.length_cons] at hRounds
      obtain ⟨rounds, rfl⟩ : ∃ n, rounds = n + 1 := ⟨rounds - 1, by omega⟩
      have hNext := hShows.nextSibling _ _ _ hSplit
      obtain ⟨cell, kids, hRose, hPlain⟩ := s.rose_root
      have hChild : v ∈ children (rows.map Prod.fst) i := by rw [hSplit]; simp
      have hRow := row_of_child hChild (hRose ▸ hAt)
      have hPlainV : (source.token v).objectKey = false := by rw [hShows.objectKey hRow, hPlain]
      obtain ⟨hValuePacks, hValueSome⟩ := hValues s List.mem_cons_self v List.mem_cons_self
        hAt _ _ hFresh hPacks
      obtain ⟨hRestPacks, hRestSome⟩ := @ih (done ++ [v]) rest (by simpa using hSplit) hRest
        (fun s hs v hv => hValues s (List.mem_cons_of_mem _ hs) v (List.mem_cons_of_mem _ hv))
        rounds (by omega) _ _ (by rw [List.length_append]; omega) hValuePacks
      rw [List.head?_cons, compactChildren]
      simp only [hPlainV, Bool.false_and, Bool.false_eq_true, if_false, hNext]
      refine ⟨?_, hRestSome.trans hValueSome⟩
      rw [List.map_cons, Source.append_elementRows_cons]
      exact hRestPacks

/-- A walk below a row without children only takes that row. -/
theorem compactWalk_leaf (hShows : source.Shows rows) {cell : Cell} {i fuel : Nat}
    {parent : Option Nat} (hAt : Rose.At rows (.node cell []) i) {target : Packed}
    {packed : List (Row Cell)} (hParent : ∀ p, parent = some p → p < packed.length)
    (hPacks : target.Packs source packed) :
    (compactWalk source (fuel + 1) i parent target).Packs source (packed ++ [(parent, cell)]) ∧
      (compactWalk source (fuel + 1) i parent target).tokens.isSome = target.tokens.isSome := by
  obtain ⟨row, hRow, hCell⟩ := Option.map_eq_some_iff.mp hAt.1
  have hFirst : (source.token i).links.firstChild = none := by
    rw [hShows.firstChild (List.getElem?_eq_some_iff.mp hRow).1, children_of_leaf hAt]
    rfl
  have hTake := hPacks.take hShows
    (show rows[i]? = some (row.1, cell) by rw [hRow, ← hCell]) hParent
  rw [compactWalk, hFirst]
  cases source.tokens.length <;> exact hTake

theorem compactWalk_packs (hShows : source.Shows rows) (hMarks : source.Marks rows) (s : Source)
    {i fuel : Nat} {parent : Option Nat} (hAt : Rose.At rows s.rose i)
    (hFuel : rows.length ≤ i + fuel) {target : Packed} {packed : List (Row Cell)}
    (hParent : ∀ p, parent = some p → p < packed.length) (hPacks : target.Packs source packed) :
    (compactWalk source fuel i parent target).Packs source
      (packed ++ s.lastWins.rows packed.length parent) ∧
      (compactWalk source fuel i parent target).tokens.isSome = target.tokens.isSome := by
  have hLt := hAt.lt_length
  obtain ⟨fuel, rfl⟩ : ∃ n, fuel = n + 1 := ⟨fuel - 1, by omega⟩
  induction s generalizing i fuel parent target packed with
  | object span members ih =>
      rw [Source.rose_object] at hAt
      obtain ⟨⟨old, cell⟩, hRow, rfl⟩ := Option.map_eq_some_iff.mp hAt.1
      obtain ⟨hTake, hSome⟩ := hPacks.take hShows hRow hParent
      have hFresh : packed.length <
          (packed ++ [(parent, (⟨.object, span, none, false, false⟩ : Cell))]).length := by
        rw [List.length_append, List.length_singleton]
        omega
      have hRounds : (children (rows.map Prod.fst) i).length ≤ source.tokens.length := by
        have := children_length_le i (rows.map Prod.fst)
        rwa [List.length_map, ← hShows.length] at this
      obtain ⟨hPacked, hSome'⟩ := compactChildren_members (compactWalk source fuel) packed.length
        hShows hMarks (List.nil_append _).symm (Rose.allAt_iff.mp hAt.2)
        (fun key k hk hKeyAt target packed hFresh hPacks => by
          have := hShows.child_below hk
          obtain ⟨fuel, rfl⟩ : ∃ n, fuel = n + 1 := ⟨fuel - 1, by omega⟩
          exact compactWalk_leaf hShows hKeyAt (by rintro p ⟨⟩; exact hFresh) hPacks)
        (fun m hm v hv hValueAt target packed hFresh hPacks => by
          have := hShows.child_below hv
          obtain ⟨fuel, rfl⟩ : ∃ n, fuel = n + 1 := ⟨fuel - 1, by omega⟩
          exact ih m hm hValueAt (by rintro p ⟨⟩; exact hFresh) hPacks this.2 fuel (by omega))
        hRounds hFresh hTake
      rw [compactWalk, hPacks.count, hShows.firstChild hLt, Source.lastWins_object,
        Source.rows_object]
      rw [List.length_append, List.length_singleton, List.append_assoc, List.singleton_append]
        at hPacked
      exact ⟨hPacked, hSome'.trans hSome⟩
  | array span elements ih =>
      rw [Source.rose_array] at hAt
      obtain ⟨⟨old, cell⟩, hRow, rfl⟩ := Option.map_eq_some_iff.mp hAt.1
      obtain ⟨hTake, hSome⟩ := hPacks.take hShows hRow hParent
      have hFresh : packed.length <
          (packed ++ [(parent, (⟨.array, span, none, false, false⟩ : Cell))]).length := by
        rw [List.length_append, List.length_singleton]
        omega
      have hRounds : (children (rows.map Prod.fst) i).length ≤ source.tokens.length := by
        have := children_length_le i (rows.map Prod.fst)
        rwa [List.length_map, ← hShows.length] at this
      obtain ⟨hPacked, hSome'⟩ := compactChildren_elements (compactWalk source fuel) packed.length
        hShows (List.nil_append _).symm (Rose.allAt_iff.mp hAt.2)
        (fun s hs v hv hValueAt target packed hFresh hPacks => by
          have := hShows.child_below hv
          obtain ⟨fuel, rfl⟩ : ∃ n, fuel = n + 1 := ⟨fuel - 1, by omega⟩
          exact ih s hs hValueAt (by rintro p ⟨⟩; exact hFresh) hPacks this.2 fuel (by omega))
        hRounds hFresh hTake
      rw [compactWalk, hPacks.count, hShows.firstChild hLt, Source.lastWins_array,
        Source.rows_array]
      rw [List.length_append, List.length_singleton, List.append_assoc, List.singleton_append]
        at hPacked
      exact ⟨hPacked, hSome'.trans hSome⟩
  | string literal => exact compactWalk_leaf hShows hAt hParent hPacks
  | number span lexeme => exact compactWalk_leaf hShows hAt hParent hPacks
  | boolean span value => exact compactWalk_leaf hShows hAt hParent hPacks
  | null span => exact compactWalk_leaf hShows hAt hParent hPacks

end MaelysJson
