import MaelysJson.Serializing.Buffer

/-! What the output buffer does when memory is granted: an operation appends its bytes
as long as they fit under the maximum, and reports the limit otherwise. -/
namespace MaelysJson

open Run Heap Allocating

structure Layout where
  indent : Bool
  ascii : Bool
  deriving DecidableEq, Repr

def Serializer.layout (s : Serializer) : Layout := ⟨s.indent, s.ascii⟩

/-- The operation appends `out` where it fits, and reports the limit where it does not. -/
structure Emits (layout : Layout) (x : SerializerM Unit) (out : Bytes) : Prop where
  fits : ∀ s : Serializer, s.Steady → s.layout = layout → s.bytes.length + out.length ≤ s.maximum →
    ∃ capacity heap, x s = .ok () { s with bytes := s.bytes ++ out, capacity, heap } ∧ heap.Generous
  exceeds : ∀ s : Serializer, s.Steady → s.layout = layout →
    s.maximum < s.bytes.length + out.length → ∃ t, x s = .error .errLimit t

namespace Emits

variable {layout : Layout} {x y : SerializerM Unit} {left right out : Bytes}

theorem done : Emits layout (return ()) [] := by
  constructor
  · intro s hSteady _ _
    refine ⟨s.capacity, s.heap, ?_, hSteady.generous⟩
    rw [List.append_nil]
    rfl
  · intro s hSteady _ hExceeds
    exact absurd hSteady.fits (not_le.mpr hExceeds)

/-- One operation after another appends the bytes of both. -/
theorem seq (hx : Emits layout x left) (hy : Emits layout y right) :
    Emits layout (x >>= fun _ => y) (left ++ right) := by
  have hNext {s : Serializer} (hSteady : s.Steady) (capacity : Nat) {heap : Heap}
      (hHeap : heap.Generous) (hFits : s.bytes.length + left.length ≤ s.maximum) :
      Serializer.Steady { s with bytes := s.bytes ++ left, capacity, heap } := by
    refine ⟨hHeap, ?_, hSteady.bounded⟩
    rw [List.length_append]
    exact hFits
  constructor
  · intro s hSteady hLayout hFits
    rw [List.length_append, ← Nat.add_assoc] at hFits
    have hLeft := (Nat.le_add_right _ _).trans hFits
    obtain ⟨capacity, heap, hRun, hHeap⟩ := hx.fits s hSteady hLayout hLeft
    obtain ⟨capacity', heap', hRun', hHeap'⟩ := hy.fits _
      (hNext hSteady capacity hHeap hLeft) hLayout (by rw [List.length_append]; exact hFits)
    refine ⟨capacity', heap', ?_, hHeap'⟩
    rw [bind_of_ok hRun, hRun', List.append_assoc]
  · intro s hSteady hLayout hExceeds
    rw [List.length_append, ← Nat.add_assoc] at hExceeds
    by_cases hLeft : s.bytes.length + left.length ≤ s.maximum
    · obtain ⟨capacity, heap, hRun, hHeap⟩ := hx.fits s hSteady hLayout hLeft
      obtain ⟨t, hRun'⟩ := hy.exceeds _ (hNext hSteady capacity hHeap hLeft) hLayout
        (by rw [List.length_append]; exact hExceeds)
      exact ⟨t, (bind_of_ok hRun).trans hRun'⟩
    · obtain ⟨t, hRun⟩ := hx.exceeds s hSteady hLayout (not_le.mp hLeft)
      exact ⟨t, bind_of_error hRun⟩

/-- A test of the layout. -/
theorem get {f : Serializer → SerializerM Unit}
    (h : ∀ s : Serializer, s.layout = layout → Emits layout (f s) out) :
    Emits layout (MonadState.get >>= f) out := by
  constructor
  · intro s hSteady hLayout hFits
    exact (h s hLayout).fits s hSteady hLayout hFits
  · intro s hSteady hLayout hExceeds
    exact (h s hLayout).exceeds s hSteady hLayout hExceeds

/-- A request for scratch memory. -/
theorem request {size : Nat} {f : Bool → SerializerM Unit} (h : Emits layout (f true) out) :
    Emits layout (serializerRequest size >>= f) out := by
  have hRun {s : Serializer} (hSteady : s.Steady) :
      (serializerRequest size >>= f) s = f true (spent s [size]) := by
    have hGranted : (heap s).grant (heap s).requests.length = true := hSteady.generous _
    rw [bind_of_ok (serializerRequest_eq size s), hGranted]
  have hSpent {s : Serializer} (hSteady : s.Steady) : (spent s [size]).Steady :=
    ⟨hSteady.generous.after _, hSteady.fits, hSteady.bounded⟩
  constructor
  · intro s hSteady hLayout hFits
    rw [hRun hSteady]
    exact h.fits _ (hSpent hSteady) hLayout hFits
  · intro s hSteady hLayout hExceeds
    rw [hRun hSteady]
    exact h.exceeds _ (hSpent hSteady) hLayout hExceeds

end Emits

/-! ### Single appends -/

theorem append_emits (layout : Layout) (bytes : Bytes) : Emits layout (append bytes) bytes := by
  constructor
  · intro s hSteady _ hFits
    obtain ⟨capacity, heap, hRun, hHeap, -⟩ := append_fits hSteady hFits
    exact ⟨capacity, heap, hRun, hHeap⟩
  · intro s hSteady _ hExceeds
    exact ⟨s, append_exceeds hSteady hExceeds⟩

/-! ### Layout -/

theorem appendSpaces_emits (layout : Layout) (count : Nat) :
    Emits layout (appendSpaces count) (List.replicate count 0x20) := by
  induction count with
  | zero => exact .done
  | succ count ih => exact (append_emits layout [0x20]).seq ih

/-- A line of its own at a level, in indented output. -/
def Layout.gap (layout : Layout) (level : Nat) : Bytes :=
  if layout.indent then 0x0a :: List.replicate (level * indentWidth) 0x20 else []

/-- What stands between a key and its value. -/
def Layout.colon (layout : Layout) : Bytes := if layout.indent then [0x3a, 0x20] else [0x3a]

theorem appendBreak_emits (layout : Layout) (level : Nat) :
    Emits layout (appendBreak level) (layout.gap level) := by
  apply Emits.get
  rintro s rfl
  cases hIndent : s.indent with
  | false =>
      have hGap : s.layout.gap level = [] :=
        if_neg (by rw [show s.layout.indent = s.indent from rfl, hIndent]; nofun)
      rw [hGap]
      exact .done
  | true =>
      have hGap : s.layout.gap level = [0x0a] ++ List.replicate (level * indentWidth) 0x20 :=
        if_pos hIndent
      rw [hGap]
      exact (append_emits _ _).seq (appendSpaces_emits _ _)

theorem appendColon_emits (layout : Layout) :
    Emits layout (get >>= fun s => append (if s.indent = true then [0x3a, 0x20] else [0x3a]))
      layout.colon := by
  apply Emits.get
  rintro s rfl
  exact append_emits _ _

end MaelysJson
