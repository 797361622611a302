import Mathlib

/-!
# Items side by side in a buffer

Items with an offset and an image stand in a buffer without overlapping.  Their
images are then no longer than the buffer, and a buffer that is no longer than
their images is made of them and nothing else.
-/

namespace MiniKV.Packing

variable {Item Symbol : Type*}

/-- The pieces stand in the buffer in this order, with gaps around them. -/
inductive Scattered : List (List Symbol) → List Symbol → Prop
  | gap (rest : List Symbol) : Scattered [] rest
  | piece (gap piece : List Symbol) {pieces : List (List Symbol)}
      {rest : List Symbol} (hrest : Scattered pieces rest) :
      Scattered (piece :: pieces) (gap ++ (piece ++ rest))

variable {pieces : List (List Symbol)} {buffer : List Symbol}

theorem Scattered.length_le (hscattered : Scattered pieces buffer) :
    pieces.flatten.length ≤ buffer.length := by
  induction hscattered with
  | gap rest => exact Nat.zero_le _
  | piece gap piece _ ih =>
      rw [List.flatten_cons, List.length_append, List.length_append,
        List.length_append]
      omega

/-- A buffer without room for gaps. -/
theorem Scattered.eq_flatten (hscattered : Scattered pieces buffer)
    (hfull : buffer.length ≤ pieces.flatten.length) :
    buffer = pieces.flatten := by
  induction hscattered with
  | gap rest => exact List.length_eq_zero_iff.mp (Nat.le_zero.mp hfull)
  | piece gap piece hrest ih =>
      have hlength := hrest.length_le
      rw [List.flatten_cons, List.length_append, List.length_append,
        List.length_append] at hfull
      have hgap : gap = [] := List.length_eq_zero_iff.mp (by omega)
      rw [hgap, List.nil_append, List.flatten_cons, ← ih (by omega)]

variable (offset : Item → ℕ) (image : Item → List Symbol)

/-- One item ends before the other one begins. -/
def Apart (left right : Item) : Prop :=
  offset left + (image left).length ≤ offset right ∨
    offset right + (image right).length ≤ offset left

/-- The image of every item stands at its offset, and no two items overlap. -/
structure Placed (buffer : List Symbol) (items : List Item) : Prop where
  stands : ∀ item ∈ items, image item <+: buffer.drop (offset item)
  occupied : ∀ item ∈ items, image item ≠ []
  apart : items.Pairwise (Apart offset image)

variable {offset image} {items : List Item}

/-- Items in the order of their offsets, from `start` on. -/
theorem scattered_of_ordered
    (hstands : ∀ item ∈ items, image item <+: buffer.drop (offset item))
    (hordered : items.Pairwise fun left right =>
      offset left + (image left).length ≤ offset right)
    {start : ℕ} (hstart : ∀ item ∈ items, start ≤ offset item) :
    Scattered (items.map image) (buffer.drop start) := by
  induction items generalizing start with
  | nil => exact .gap _
  | cons item items ih =>
      rw [List.forall_mem_cons] at hstands hstart
      rw [List.pairwise_cons] at hordered
      obtain ⟨rest, hrest⟩ := hstands.1
      have hgap : buffer.drop start =
          (buffer.drop start).take (offset item - start) ++
            (image item ++ rest) := by
        rw [hrest]
        have hdrop : buffer.drop (offset item) =
            (buffer.drop start).drop (offset item - start) := by
          rw [List.drop_drop, Nat.add_sub_of_le hstart.1]
        rw [hdrop, List.take_append_drop]
      have hbehind : rest =
          buffer.drop (offset item + (image item).length) := by
        rw [← List.drop_drop, ← hrest, List.drop_left]
      rw [hgap, List.map_cons]
      apply Scattered.piece
      rw [hbehind]
      exact ih hstands.2 hordered.2 hordered.1

namespace Placed

variable (hplaced : Placed offset image buffer items)
include hplaced

/-- The items in the order of their offsets. -/
theorem exists_scattered : ∃ sorted : List Item, sorted.Perm items ∧
    Scattered (sorted.map image) buffer := by
  let before : Item → Item → Prop := fun left right =>
    offset left ≤ offset right
  have htotal : Std.Total before :=
    ⟨fun left right => le_total (offset left) (offset right)⟩
  have htrans : IsTrans Item before := ⟨fun _ _ _ => le_trans⟩
  let sorted := items.insertionSort before
  have hperm : sorted.Perm items := List.perm_insertionSort before items
  have hsorted : sorted.Pairwise before :=
    List.pairwise_insertionSort before items
  have hapart : sorted.Pairwise (Apart offset image) :=
    hperm.symm.pairwise hplaced.apart Or.symm
  have hordered : sorted.Pairwise fun left right =>
      offset left + (image left).length ≤ offset right := by
    apply (hsorted.and hapart).imp_of_mem
    intro left right hleft hright hpair
    apply hpair.2.resolve_right
    intro hover
    have hpositive : 0 < (image right).length := List.length_pos_iff.mpr
      (hplaced.occupied right (hperm.mem_iff.mp hright))
    have hbefore : offset left ≤ offset right := hpair.1
    omega
  have hstart : ∀ item ∈ sorted, 0 ≤ offset item := fun _ _ => Nat.zero_le _
  exact ⟨sorted, hperm, scattered_of_ordered
    (fun item hitem => hplaced.stands item (hperm.mem_iff.mp hitem)) hordered
    hstart⟩

theorem sum_length_le :
    (items.map fun item => (image item).length).sum ≤ buffer.length := by
  obtain ⟨sorted, hperm, hscattered⟩ := hplaced.exists_scattered
  have hlength := hscattered.length_le
  rw [List.length_flatten, List.map_map] at hlength
  exact ((hperm.map _).sum_eq).symm.trans_le hlength

/-- A buffer that has no room left is made of the items. -/
theorem eq_flatten (hfull : buffer.length ≤
    (items.map fun item => (image item).length).sum) :
    ∃ sorted : List Item, sorted.Perm items ∧ buffer = sorted.flatMap image := by
  obtain ⟨sorted, hperm, hscattered⟩ := hplaced.exists_scattered
  refine ⟨sorted, hperm, ?_⟩
  apply hscattered.eq_flatten
  rw [List.length_flatten, List.map_map]
  exact hfull.trans_eq ((hperm.map _).sum_eq).symm

end Placed

end MiniKV.Packing
