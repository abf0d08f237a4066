import Mathlib.Data.List.Infix
import Peg.Proofs.ReaderSessions

/-!
# Locations are ordered like their offsets

Locations are compared by line and column, and their offsets are left out. Within one text
nothing is lost by that: each character moves a location onward in the order, to the next
column or to the next line, and onward in bytes. So the order of two locations counted over a
text is that of their offsets (`Location.Counted.order_eq`), and two of them that have one line
and one column have one offset (`Text.order_locationAt`).
-/

namespace Peg

namespace Location

/-- The location is on an earlier line, or on the same line in an earlier column. -/
def Before (a b : Location) : Prop := a.line < b.line ∨ a.line = b.line ∧ a.column < b.column

theorem Before.trans {a b c : Location} (first : a.Before b) (second : b.Before c) :
    a.Before c := by
  unfold Before at *
  omega

theorem order_eq_lt_iff {a b : Location} : a.order b = .lt ↔ a.Before b := by
  rw [order, Ordering.then_eq_lt, compare_lt_iff_lt, compare_eq_iff_eq, compare_lt_iff_lt, Before]

theorem order_eq_eq_iff {a b : Location} : a.order b = .eq ↔ a.samePlace b = true := by
  rw [order, Ordering.then_eq_eq, compare_eq_iff_eq, compare_eq_iff_eq, samePlace,
    Bool.and_eq_true, beq_iff_eq, beq_iff_eq]

theorem order_swap (a b : Location) : (a.order b).swap = b.order a := by
  rw [order, Ordering.swap_then, Nat.compare_swap, Nat.compare_swap, order]

/-! ## Counting moves onward -/

theorem before_advance (l : Location) (c : Char) : l.Before (l.advance c) := by
  unfold advance
  split
  · exact .inl (Nat.lt_succ_self _)
  · exact .inr ⟨rfl, Nat.lt_succ_self _⟩

theorem before_advanceOver (l : Location) (c : Char) (t : Text) :
    l.Before (l.advanceOver (c :: t)) := by
  induction t generalizing l c with
  | nil => exact before_advance l c
  | cons d t ih => exact (before_advance l c).trans (ih (l.advance c) d)

/-- A location and one further on in the text are in the order of their offsets. -/
theorem order_advanceOver (l : Location) (t : Text) :
    l.order (l.advanceOver t) = compare l.offset (l.advanceOver t).offset := by
  cases t with
  | nil =>
    have same : l.samePlace l = true := by rw [samePlace, beq_self_eq_true, beq_self_eq_true]; rfl
    rw [advanceOver_nil, order_eq_eq_iff.mpr same, Nat.compare_eq_eq.mpr rfl]
  | cons c t =>
    have onward : l.offset < (l.advanceOver (c :: t)).offset := by
      have width := c.utf8Size_pos
      rw [advanceOver_offset, Text.byteSize_cons]
      omega
    rw [order_eq_lt_iff.mpr (before_advanceOver l c t), Nat.compare_eq_lt.mpr onward]

/-! ## Locations of one text -/

/-- Of two locations counted over one text, one is further on than the other. -/
theorem Counted.total {t : Text} {a b : Location} (ha : a.Counted t) (hb : b.Counted t) :
    (∃ between, b = a.advanceOver between) ∨ ∃ between, a = b.advanceOver between := by
  obtain ⟨front, rest, rfl, rfl⟩ := counted_iff.mp ha
  obtain ⟨front', rest', whole, rfl⟩ := counted_iff.mp hb
  have pre : front <+: front ++ rest := List.prefix_append front rest
  have pre' : front' <+: front ++ rest := ⟨rest', whole.symm⟩
  rcases List.prefix_or_prefix_of_prefix pre pre' with ⟨between, rfl⟩ | ⟨between, rfl⟩
  · exact .inl ⟨between, advanceOver_append ..⟩
  · exact .inr ⟨between, advanceOver_append ..⟩

theorem Counted.order_eq {t : Text} {a b : Location} (ha : a.Counted t) (hb : b.Counted t) :
    a.order b = compare a.offset b.offset := by
  rcases ha.total hb with ⟨between, rfl⟩ | ⟨between, rfl⟩
  · exact order_advanceOver a between
  · rw [← order_swap, order_advanceOver, Nat.compare_swap]

end Location

namespace Text

/-- The location at a byte offset, counted from the start of the text. There is none inside a
character and none behind the end. -/
def locationAt? (t : Text) (n : Nat) : Option Location :=
  (t.takeBytes? n).map Location.start.advanceOver

theorem locationAt?_eq_some_iff {t : Text} {n : Nat} {l : Location} :
    t.locationAt? n = some l ↔ l.Counted t ∧ l.offset = n := by
  have offset (front : Text) : (Location.start.advanceOver front).offset = front.byteSize := by
    rw [Location.advanceOver_offset, Location.start, Nat.zero_add]
  rw [locationAt?, Option.map_eq_some_iff, Location.Counted]
  constructor
  · rintro ⟨front, cut, rfl⟩
    obtain ⟨_, _, size⟩ := takeBytes?_eq_some_iff.mp cut
    have here : (Location.start.advanceOver front).offset = n := (offset front).trans size
    exact ⟨⟨front, here ▸ cut, rfl⟩, here⟩
  · rintro ⟨⟨front, cut, counted⟩, rfl⟩
    exact ⟨front, cut, counted.symm⟩

theorem exists_locationAt {t : Text} {n : Nat} (boundary : t.isBoundary n = true) :
    ∃ l, t.locationAt? n = some l := by
  obtain ⟨rest, cut⟩ := Option.isSome_iff_exists.mp boundary
  obtain ⟨front, rfl, rfl⟩ := dropBytes?_eq_some_iff.mp cut
  exact ⟨Location.start.advanceOver front, by
    rw [locationAt?, takeBytes?_byteSize_append, Option.map_some]⟩

/-- At any two places between characters of a text there are locations. They are in the order
of their offsets, and they have one line and one column only if they have one offset. -/
theorem order_locationAt (t : Text) {a b : Nat} (ha : t.isBoundary a = true)
    (hb : t.isBoundary b = true) :
    ∃ la lb, t.locationAt? a = some la ∧ t.locationAt? b = some lb ∧
      la.offset = a ∧ lb.offset = b ∧ la.order lb = compare a b ∧
      (la.samePlace lb = true ↔ la.offset = lb.offset) := by
  obtain ⟨la, here⟩ := exists_locationAt ha
  obtain ⟨lb, there⟩ := exists_locationAt hb
  obtain ⟨counted, rfl⟩ := locationAt?_eq_some_iff.mp here
  obtain ⟨counted', rfl⟩ := locationAt?_eq_some_iff.mp there
  have order := counted.order_eq counted'
  refine ⟨la, lb, here, there, rfl, rfl, order, ?_⟩
  rw [← Location.order_eq_eq_iff, order, Nat.compare_eq_eq]

/-- Column 4 of a line lies before column 2 of the next one. The offsets between them are those
of the end of the line and of an `'é'` of two bytes. -/
theorem order_locationAt_next_line :
    let t : Text := ['a', 'é', '\r', '\n', 'é', 'b']
    t.isBoundary 4 = true ∧ t.isBoundary 7 = true ∧
      t.locationAt? 4 = some ⟨1, 4, 4⟩ ∧ t.locationAt? 7 = some ⟨2, 2, 7⟩ ∧
      (⟨1, 4, 4⟩ : Location).order ⟨2, 2, 7⟩ = compare 4 7 ∧
      (⟨1, 4, 4⟩ : Location).samePlace ⟨2, 2, 7⟩ = false := by
  intro t
  obtain ⟨la, lb, here, there, _, _, order, same⟩ := order_locationAt t (a := 4) (b := 7) rfl rfl
  have before : t.locationAt? 4 = some ⟨1, 4, 4⟩ := by decide
  have behind : t.locationAt? 7 = some ⟨2, 2, 7⟩ := by decide
  obtain rfl := Option.some.inj (before.symm.trans here)
  obtain rfl := Option.some.inj (behind.symm.trans there)
  exact ⟨rfl, rfl, before, behind, order, Bool.eq_false_iff.mpr (mt same.mp (by decide))⟩

end Text

end Peg
