import MaelysJson.Code.Common

/-! Reading a buffer at an offset, in terms of what remains of it there. The
code scans by position; its grammar is about what remains. -/
namespace MaelysJson

theorem drop_eq_byteAt_cons {bytes : Bytes} {offset : Nat} (h : offset < bytes.length) :
    bytes.drop offset = byteAt bytes offset :: bytes.drop (offset + 1) := by
  rw [byteAt, List.getD_eq_getElem _ _ h]
  exact List.drop_eq_getElem_cons h

theorem lt_length_of_drop {bytes rest : Bytes} {offset : Nat} {byte : UInt8}
    (h : bytes.drop offset = byte :: rest) : offset < bytes.length := by
  by_contra hne
  rw [List.drop_eq_nil_of_le (by omega)] at h
  cases h

theorem byteAt_of_drop {bytes rest : Bytes} {offset : Nat} {byte : UInt8}
    (h : bytes.drop offset = byte :: rest) : byteAt bytes offset = byte := by
  rw [drop_eq_byteAt_cons (lt_length_of_drop h)] at h
  exact (List.cons.inj h).1

theorem drop_succ_of_drop {bytes rest : Bytes} {offset : Nat} {byte : UInt8}
    (h : bytes.drop offset = byte :: rest) : bytes.drop (offset + 1) = rest := by
  rw [← List.drop_drop, h]
  rfl

/-- Moving past a part of what remains. -/
theorem drop_add_of_drop {bytes left rest : Bytes} {offset : Nat}
    (h : bytes.drop offset = left ++ rest) : bytes.drop (offset + left.length) = rest := by
  rw [← List.drop_drop, h, List.drop_left]

theorem le_length_of_drop {bytes left rest : Bytes} {offset : Nat} (hOffset : offset ≤ bytes.length)
    (h : bytes.drop offset = left ++ rest) : offset + left.length ≤ bytes.length := by
  have hLength := congrArg List.length h
  simp only [List.length_drop, List.length_append] at hLength
  omega

/-- `piece` stands in `bytes` from `start` to `stop`. -/
def Stands (bytes piece : Bytes) (start stop : Nat) : Prop :=
  bytes.drop start = piece ++ bytes.drop stop ∧ stop = start + piece.length

namespace Stands

variable {bytes left right : Bytes} {start middle stop : Nat}

theorem nil : Stands bytes [] start start := ⟨rfl, rfl⟩

theorem trans (hLeft : Stands bytes left start middle) (hRight : Stands bytes right middle stop) :
    Stands bytes (left ++ right) start stop := by
  obtain ⟨hDrop, rfl⟩ := hLeft
  obtain ⟨hDrop', rfl⟩ := hRight
  exact ⟨by rw [hDrop, hDrop', List.append_assoc], by rw [List.length_append, Nat.add_assoc]⟩

theorem byte (h : start < bytes.length) : Stands bytes [byteAt bytes start] start (start + 1) :=
  ⟨drop_eq_byteAt_cons h, rfl⟩

theorem le_length (h : Stands bytes left start stop) (hStart : start ≤ bytes.length) :
    stop ≤ bytes.length := by
  rw [h.2]
  exact le_length_of_drop hStart h.1

end Stands

variable (accept : UInt8 → Bool) (bytes : Bytes) (offset : Nat)

theorem le_scanWhile : offset ≤ scanWhile accept bytes offset := Nat.le_add_right _ _

theorem scanWhile_le (h : offset ≤ bytes.length) :
    scanWhile accept bytes offset ≤ bytes.length := by
  have hLength := (List.takeWhile_prefix (l := bytes.drop offset) accept).length_le
  rw [List.length_drop] at hLength
  rw [scanWhile]
  omega

theorem scanWhile_sub :
    scanWhile accept bytes offset - offset = ((bytes.drop offset).takeWhile accept).length :=
  Nat.add_sub_cancel_left _ _

/-- What a scan passes over, and what it leaves. -/
theorem drop_eq_scanned :
    bytes.drop offset = (bytes.drop offset).takeWhile accept ++
      bytes.drop (scanWhile accept bytes offset) := by
  have h : bytes.drop offset = (bytes.drop offset).takeWhile accept ++
      (bytes.drop offset).dropWhile accept := List.takeWhile_append_dropWhile.symm
  rw [scanWhile, drop_add_of_drop h]
  exact h

theorem drop_scanWhile :
    bytes.drop (scanWhile accept bytes offset) = (bytes.drop offset).dropWhile accept := by
  have h : bytes.drop offset = (bytes.drop offset).takeWhile accept ++
      (bytes.drop offset).dropWhile accept := List.takeWhile_append_dropWhile.symm
  exact drop_add_of_drop h

theorem take_scanned :
    (bytes.drop offset).take (scanWhile accept bytes offset - offset) =
      (bytes.drop offset).takeWhile accept := by
  rw [scanWhile_sub]
  exact (List.prefix_iff_eq_take.mp (List.takeWhile_prefix accept)).symm

variable {accept bytes offset}

/-- A run of accepted bytes before one that is refused is exactly what a scan passes over. -/
theorem scanWhile_eq {run rest : Bytes} (h : bytes.drop offset = run ++ rest)
    (hRun : ∀ byte ∈ run, accept byte = true) (hRest : ∀ byte ∈ rest.head?, accept byte = false) :
    scanWhile accept bytes offset = offset + run.length := by
  have hStop : rest.takeWhile accept = [] := by
    cases rest with
    | nil => rfl
    | cons byte rest => simp [hRest byte rfl]
  rw [scanWhile, h, List.takeWhile_append_of_pos hRun, hStop, List.append_nil]

end MaelysJson
