import MaelysJson.Json.LastWins
import MaelysJson.Table.Layout
import MaelysJson.Text.Decode
import MaelysJson.Text.Number

/-! The texts of a value: its keys, its strings and the lexemes of its numbers. They
take no more bytes than the text they were read from, hold no NUL, and follow each
other in the arena in the order of the tokens. -/
namespace MaelysJson

open Forest Grammar Utf8

/-! ### The texts of a tree -/

namespace Tree

/-- Keys, strings and numbers, in the order of the text. -/
def texts : Json → List Bytes :=
  fold
    { object := fun members => members.flatMap fun m => m.1 :: m.2
      array := List.flatten
      string := fun text => [text]
      number := fun lexeme => [lexeme]
      boolean := fun _ => []
      null := [] }

theorem texts_object (members : List (Bytes × Json)) :
    (object members : Json).texts = members.flatMap fun m => m.1 :: m.2.texts := by
  simp only [texts, fold_object, List.flatMap_map]

theorem texts_array (elements : List Json) :
    (array elements : Json).texts = elements.flatMap texts := by
  simp only [texts, fold_array, List.flatMap_def]

/-- Every text is that of a token. -/
theorem length_texts_le (t : Json) : t.texts.length ≤ t.tokens := by
  induction t using Tree.induct with
  | object members ih =>
      rw [texts_object, tokens_object, List.length_flatMap]
      refine (List.sum_le_sum fun m hm => ?_).trans (Nat.le_add_left _ 1)
      rw [List.length_cons, Nat.add_comm]
      exact Nat.add_le_add_left (ih m hm) 1
  | array elements ih =>
      rw [texts_array, tokens_array, List.length_flatMap]
      exact (List.sum_le_sum fun v hv => ih v hv).trans (Nat.le_add_left _ 1)
  | string text => exact le_rfl
  | number lexeme => exact le_rfl
  | boolean value => exact Nat.zero_le 1
  | null => exact Nat.zero_le 1

theorem flatMap_sublist {α β : Type} {l l' : List α} {f f' : α → List β} (h : l.Sublist l')
    (hf : ∀ a ∈ l', (f a).Sublist (f' a)) : (l.flatMap f).Sublist (l'.flatMap f') := by
  induction h with
  | slnil => exact List.Sublist.refl _
  | cons a _ ih =>
      rw [List.flatMap_cons]
      exact (ih fun b hb => hf b (List.mem_cons_of_mem _ hb)).trans (List.sublist_append_right _ _)
  | cons_cons a _ ih =>
      rw [List.flatMap_cons, List.flatMap_cons]
      exact (hf a List.mem_cons_self).append (ih fun b hb => hf b (List.mem_cons_of_mem _ hb))

/-- Leaving out superseded members leaves out their texts. -/
theorem texts_lastWins (t : Json) : t.lastWins.texts.Sublist t.texts := by
  induction t using Tree.induct with
  | object members ih =>
      rw [lastWins_object, texts_object, texts_object]
      have hKept := flatMap_sublist
        (lastOccurrences_sublist (members.map fun m => (m.1, m.2.lastWins)))
        fun (m : Bytes × Json) _ => List.Sublist.refl (m.1 :: m.2.texts)
      refine hKept.trans ?_
      rw [List.flatMap_map]
      exact flatMap_sublist (List.Sublist.refl _) fun m hm => (ih m hm).cons_cons m.1
  | array elements ih =>
      rw [lastWins_array, texts_array, texts_array, List.flatMap_map]
      exact flatMap_sublist (List.Sublist.refl _) ih
  | _ => exact List.Sublist.refl _

theorem tokens_lastWins (t : Json) : t.lastWins.tokens ≤ t.tokens := by
  induction t using Tree.induct with
  | object members ih =>
      rw [lastWins_object, tokens_object, tokens_object]
      have hKept := ((lastOccurrences_sublist (members.map fun m => (m.1, m.2.lastWins))).map
        fun m => 1 + m.2.tokens).sum_le_sum fun _ _ => Nat.zero_le _
      rw [List.map_map] at hKept
      refine Nat.add_le_add_left (hKept.trans (List.sum_le_sum fun m hm => ?_)) 1
      exact Nat.add_le_add_left (ih m hm) 1
  | array elements ih =>
      rw [lastWins_array, tokens_array, tokens_array, List.map_map]
      exact Nat.add_le_add_left (List.sum_le_sum fun v hv => ih v hv) 1
  | _ => exact le_rfl

end Tree

/-! ### Bytes of a text and of its spelling -/

variable {profile : Profile}

/-- A literal is at least as long as the text it denotes. -/
theorem Grammar.Content.length_le {content text : Bytes} (h : Content profile content text) :
    text.length ≤ content.length := by
  rw [Content] at h
  split_ifs at h with hProfile
  · rw [h.2]
  · exact h.text.2.1

theorem Grammar.StringUnit.zero_notMem {unit decoded : Bytes}
    (h : StringUnit Unescaped unit decoded) :
    (0 : UInt8) ∉ decoded := by
  have hScalar (c : Char) (hc : c.val.toNat ≠ 0) : (0 : UInt8) ∉ String.utf8EncodeChar c :=
    fun hMem => @ne_of_mem_encodeChar _ _ 0 (by decide) hc hMem rfl
  cases h with
  | scalar c raw => exact hScalar c (by have := raw.1; omega)
  | @simple escape byte hEscapes =>
      rw [List.mem_singleton]
      rintro rfl
      simp [simpleEscapes] at hEscapes
  | point c hUnit hNonzero => exact hScalar c hNonzero
  | pair c _ _ _ _ hValue => exact hScalar c (by omega)

theorem Grammar.Content.zero_notMem {content text : Bytes} (h : Content profile content text) :
    (0 : UInt8) ∉ text := by
  rw [Content] at h
  split_ifs at h with hProfile
  · obtain ⟨hPlain, rfl⟩ := h
    exact fun hMem => absurd (hPlain 0 hMem).1 (by decide)
  · induction h with
    | nil => exact List.not_mem_nil
    | cons head tail ih =>
        rw [List.mem_append, not_or]
        exact ⟨head.zero_notMem, ih⟩

theorem Grammar.Number.zero_notMem {lexeme : Bytes} (h : Number lexeme) : (0 : UInt8) ∉ lexeme := by
  intro hMem
  rcases h.mem 0 hMem with hDigit | hByte | hByte | hByte | hByte | hByte
  · exact absurd hDigit.1 (by decide)
  all_goals exact absurd hByte (by decide)

/-! ### Sums over a text -/

/-- What every member takes of the text, with its quotation marks, its colon and a separator, the
members take together: only the last separator is missing. -/
theorem Grammar.Members.sum_separated_le {body : Bytes} {members : List (Bytes × Json)}
    {key : Bytes → Nat} {value : Json → Nat} (h : Members profile body members)
    (hKeys : ∀ content text, Content profile content text → key text ≤ content.length + 3)
    (hValues : ∀ m ∈ members, ∀ body, Value profile body m.2 → value m.2 ≤ body.length) :
    (members.map fun m => key m.1 + value m.2 + 1).sum ≤ body.length + 1 := by
  induction members generalizing body with
  | nil => exact Nat.zero_le _
  | cons m members ih =>
      have hHead := hValues m List.mem_cons_self
      have hTail := fun body h => @ih body h fun m hm => hValues m (List.mem_cons_of_mem _ hm)
      cases h with
      | last hContent hA hB hValue =>
          have := hHead _ hValue
          have := hKeys _ _ hContent
          simp only [quoted, List.map_cons, List.map_nil, List.sum_cons, List.sum_nil,
            List.length_append, List.length_singleton] at *
          omega
      | more hContent hA hB hValue hC hD hRest =>
          have := hHead _ hValue
          have := hTail _ hRest
          have := hKeys _ _ hContent
          simp only [quoted, List.map_cons, List.sum_cons, List.length_append,
            List.length_singleton] at *
          omega

theorem Grammar.Members.sum_le {body : Bytes} {members : List (Bytes × Json)} {key : Bytes → Nat}
    {value : Json → Nat} (h : Members profile body members)
    (hKeys : ∀ content text, Content profile content text → key text ≤ content.length + 3)
    (hValues : ∀ m ∈ members, ∀ body, Value profile body m.2 → value m.2 ≤ body.length) :
    (members.map fun m => key m.1 + value m.2).sum ≤ body.length := by
  have hSum := h.sum_separated_le hKeys hValues
  have hPos : 0 < members.length := List.length_pos_iff.mpr (by rintro rfl; cases h)
  rw [List.sum_map_add, List.map_const', List.sum_replicate, smul_eq_mul] at hSum
  omega

theorem Grammar.Elements.sum_separated_le {body : Bytes} {elements : List Json} {value : Json → Nat}
    (h : Elements profile body elements)
    (hValues : ∀ v ∈ elements, ∀ body, Value profile body v → value v ≤ body.length) :
    (elements.map fun v => value v + 1).sum ≤ body.length + 1 := by
  induction elements generalizing body with
  | nil => exact Nat.zero_le _
  | cons v elements ih =>
      have hHead := hValues v List.mem_cons_self
      have hTail := fun body h => @ih body h fun v hv => hValues v (List.mem_cons_of_mem _ hv)
      cases h with
      | last hValue =>
          have := hHead _ hValue
          simpa using this
      | more hValue hC hD hRest =>
          have := hHead _ hValue
          have := hTail _ hRest
          simp only [List.map_cons, List.sum_cons, List.length_append, List.length_singleton] at *
          omega

theorem Grammar.Elements.sum_le {body : Bytes} {elements : List Json} {value : Json → Nat}
    (h : Elements profile body elements)
    (hValues : ∀ v ∈ elements, ∀ body, Value profile body v → value v ≤ body.length) :
    (elements.map value).sum ≤ body.length := by
  have hSum := h.sum_separated_le hValues
  have hPos : 0 < elements.length := List.length_pos_iff.mpr (by rintro rfl; cases h)
  rw [List.sum_map_add, List.map_const', List.sum_replicate, smul_eq_mul] at hSum
  omega

/-- Every token of a value takes at least one byte of its text. -/
theorem Grammar.Value.tokens_le {body : Bytes} {t : Json} (h : Value profile body t) :
    t.tokens ≤ body.length := by
  induction t using Tree.induct generalizing body with
  | object members ih =>
      rw [Tree.tokens_object]
      cases h with
      | emptyObject hGap => simp
      | object hBefore hBody hAfter =>
          have hMembers : (members.map fun m : Bytes × Tree Bytes => 1 + m.2.tokens).sum ≤ _ :=
            @Members.sum_le _ _ _ (fun _ => 1) Tree.tokens hBody (fun _ _ _ => Nat.le_add_left _ _)
              fun m hm body => ih m hm
          simp only [List.length_append, List.length_singleton]
          omega
  | array elements ih =>
      rw [Tree.tokens_array]
      cases h with
      | emptyArray hGap => simp
      | array hBefore hBody hAfter =>
          have := hBody.sum_le fun v hv body => ih v hv
          simp only [List.length_append, List.length_singleton]
          omega
  | string text =>
      cases h with
      | string hContent => simp [quoted, Tree.tokens, Tree.fold]
  | number lexeme =>
      cases h with
      | number hNumber => exact List.length_pos_iff.mpr hNumber.ne_nil
  | boolean value => cases h <;> decide
  | null =>
      cases h
      decide

theorem Grammar.Text.tokens_le {bytes : Bytes} {t : Json} (h : Text profile bytes t) :
    t.tokens ≤ bytes.length := by
  obtain ⟨before, body, after, -, hValue, -, rfl⟩ := h
  have := hValue.tokens_le
  simp only [List.length_append]
  omega

/-- The texts of a value take no more bytes than its spelling. -/
theorem Grammar.Value.texts_le {body : Bytes} {t : Json} (h : Value profile body t) :
    (t.texts.map List.length).sum ≤ body.length := by
  induction t using Tree.induct generalizing body with
  | object members ih =>
      rw [Tree.texts_object, List.map_flatMap, List.flatMap_def, List.sum_flatten, List.map_map]
      cases h with
      | emptyObject hGap => simp
      | object hBefore hBody hAfter =>
          have hMembers := @Members.sum_le _ _ _ List.length
            (fun v => (v.texts.map List.length).sum) hBody
            (fun _ _ hContent => hContent.length_le.trans (Nat.le_add_right _ 3)) fun m hm body =>
              ih m hm
          refine le_trans hMembers ?_
          simp only [List.length_append, List.length_singleton]
          omega
  | array elements ih =>
      rw [Tree.texts_array, List.map_flatMap, List.flatMap_def, List.sum_flatten, List.map_map]
      cases h with
      | emptyArray hGap => simp
      | array hBefore hBody hAfter =>
          have hElements := @Elements.sum_le _ _ _ (fun v => (v.texts.map List.length).sum) hBody
            fun v hv body => ih v hv
          refine le_trans hElements ?_
          simp only [List.length_append, List.length_singleton]
          omega
  | string text =>
      cases h with
      | string hContent =>
          have := hContent.length_le
          simp only [Tree.texts, Tree.fold, quoted, List.map_cons, List.map_nil, List.sum_cons,
            List.sum_nil, List.length_append, List.length_singleton]
          omega
  | number lexeme =>
      cases h with
      | number hNumber => simp [Tree.texts, Tree.fold]
  | boolean value => exact Nat.zero_le _
  | null => exact Nat.zero_le _

theorem Grammar.Text.texts_le {bytes : Bytes} {t : Json} (h : Text profile bytes t) :
    (t.texts.map List.length).sum ≤ bytes.length := by
  obtain ⟨before, body, after, -, hValue, -, rfl⟩ := h
  have := hValue.texts_le
  simp only [List.length_append]
  omega

theorem Grammar.Members.mem {body : Bytes} {members : List (Bytes × Json)}
    (h : Members profile body members) :
    ∀ m ∈ members, (∃ content, Content profile content m.1) ∧ ∃ body, Value profile body m.2 := by
  induction members generalizing body with
  | nil => exact nofun
  | cons m members ih =>
      cases h with
      | last hContent hA hB hValue =>
          intro m hm
          rw [List.mem_singleton.mp hm]
          exact ⟨⟨_, hContent⟩, _, hValue⟩
      | more hContent hA hB hValue hC hD hRest =>
          intro m hm
          rcases List.mem_cons.mp hm with rfl | hm
          · exact ⟨⟨_, hContent⟩, _, hValue⟩
          · exact ih hRest m hm

theorem Grammar.Elements.mem {body : Bytes} {elements : List Json}
    (h : Elements profile body elements) :
    ∀ v ∈ elements, ∃ body, Value profile body v := by
  induction elements generalizing body with
  | nil => exact nofun
  | cons v elements ih =>
      cases h with
      | last hValue =>
          intro v hv
          rw [List.mem_singleton.mp hv]
          exact ⟨_, hValue⟩
      | more hValue hC hD hRest =>
          intro v hv
          rcases List.mem_cons.mp hv with rfl | hv
          · exact ⟨_, hValue⟩
          · exact ih hRest v hv

/-- No text of a value holds a NUL. -/
theorem Grammar.Value.zero_notMem {body : Bytes} {t : Json} (h : Value profile body t) :
    ∀ text ∈ t.texts, (0 : UInt8) ∉ text := by
  induction t using Tree.induct generalizing body with
  | object members ih =>
      intro text hText
      rw [Tree.texts_object, List.mem_flatMap] at hText
      obtain ⟨m, hm, hText⟩ := hText
      cases h with
      | emptyObject hGap => cases hm
      | object hBefore hBody hAfter =>
          obtain ⟨⟨content, hContent⟩, body, hValue⟩ := hBody.mem m hm
          rcases List.mem_cons.mp hText with rfl | hText
          · exact hContent.zero_notMem
          · exact ih m hm hValue text hText
  | array elements ih =>
      intro text hText
      rw [Tree.texts_array, List.mem_flatMap] at hText
      obtain ⟨v, hv, hText⟩ := hText
      cases h with
      | emptyArray hGap => cases hv
      | array hBefore hBody hAfter =>
          obtain ⟨body, hValue⟩ := hBody.mem v hv
          exact ih v hv hValue text hText
  | string text =>
      cases h with
      | string hContent =>
          intro _ hText
          rw [List.mem_singleton.mp hText]
          exact hContent.zero_notMem
  | number lexeme =>
      cases h with
      | number hNumber =>
          intro _ hText
          rw [List.mem_singleton.mp hText]
          exact hNumber.zero_notMem
  | boolean value => exact nofun
  | null => exact nofun

theorem Grammar.Text.zero_notMem {bytes : Bytes} {t : Json} (h : Text profile bytes t) :
    ∀ text ∈ t.texts, (0 : UInt8) ∉ text := by
  obtain ⟨before, body, after, -, hValue, -, rfl⟩ := h
  exact hValue.zero_notMem

/-! ### Texts in the arena -/

namespace Source

/-- The texts of the rows are those of the tree, in order. -/
theorem texts_rows (s : Source) (base : Nat) (parent : Option Nat) :
    (s.rows base parent).filterMap (fun row => row.2.text) = s.json.texts := by
  induction s generalizing base parent with
  | object span members ih =>
      have hMembers (start object : Nat) :
          (memberRows members start object).filterMap (fun row => row.2.text) =
          members.flatMap fun m => m.1.text :: m.2.json.texts := by
        induction members generalizing start with
        | nil => rfl
        | cons m members ihMembers =>
            have hHead := ih m List.mem_cons_self
            have hTail := ihMembers fun m hm => ih m (List.mem_cons_of_mem _ hm)
            rw [memberRows_cons]
            show m.1.text :: List.filterMap (fun row : Row Cell => row.2.text) (_ ++ _) = _
            rw [List.filterMap_append, hHead, hTail]
            rfl
      rw [rows_object]
      show List.filterMap
        (fun row : Row Cell => row.2.text) (memberRows members (base + 1) base) = _
      rw [hMembers, json_object, Tree.texts_object, List.flatMap_map]
  | array span elements ih =>
      have hElements (start array : Nat) :
          (elementRows elements start array).filterMap (fun row => row.2.text) =
          elements.flatMap fun v => v.json.texts := by
        induction elements generalizing start with
        | nil => rfl
        | cons v elements ihElements =>
            have hHead := ih v List.mem_cons_self
            have hTail := ihElements fun v hv => ih v (List.mem_cons_of_mem _ hv)
            rw [elementRows_cons, List.filterMap_append, hHead, hTail]
            rfl
      rw [rows_array]
      show List.filterMap
        (fun row : Row Cell => row.2.text) (elementRows elements (base + 1) base) = _
      rw [hElements, json_array, Tree.texts_array, List.flatMap_map]
  | _ => rfl

end Source

theorem arenaOf_texts (rows : List (Row Cell)) :
    arenaOf rows = (rows.filterMap fun row => row.2.text).flatMap fun text => text ++ [0] := by
  induction rows with
  | nil => rfl
  | cons row rows ih =>
      rw [arenaOf_cons, ih, List.filterMap_cons, cellText]
      cases row.2.text <;> rfl

theorem length_arenaOf (rows : List (Row Cell)) :
    (arenaOf rows).length =
      ((rows.filterMap fun row => row.2.text).map List.length).sum +
        (rows.filterMap fun row => row.2.text).length := by
  rw [arenaOf_texts, List.length_flatMap]
  induction rows.filterMap fun row => row.2.text with
  | nil => rfl
  | cons text texts ih =>
      rw [List.map_cons, List.sum_cons, ih, List.map_cons, List.sum_cons, List.length_cons,
        List.length_append, List.length_singleton]
      omega

end MaelysJson
