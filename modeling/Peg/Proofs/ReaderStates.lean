import Peg.Source.Reader

/-!
# States of a reader

A reader starts at the front of a text and is then moved, saved and sent back in any
order. `Reader.Reachable` are the states that it can come to in this way; jumps may go
to any location, also to one whose line and column are made up. In all of these states
the reader and all its save points stand between two characters
(`Reader.Reachable.valid`, `Reader.Reachable.sound`).
-/

namespace Peg.Reader

/-- The states that the operations of a reader lead to. An operation that finds a
fault leads to the state it leaves. -/
inductive Reachable : Reader → Prop
  | ofText (t : Text) : Reachable (.ofText t)
  | advance {r : Reader} (n : Nat) : Reachable r → Reachable (r.advance n)
  | read {r : Reader} (n : Nat) : Reachable r → Reachable (r.read n).2
  | readText {r : Reader} (n : Nat) : Reachable r → Reachable (r.readText n).2
  | save {r : Reader} : Reachable r → Reachable r.save
  | load {r : Reader} : Reachable r → Reachable r.load.2
  | discard {r : Reader} : Reachable r → Reachable r.discard.2
  | rewind {r : Reader} (l : Location) : Reachable r → Reachable (r.rewind l).2

/-- The cursor and all save points stand between two characters. -/
structure Sound (r : Reader) : Prop where
  valid : r.Valid
  saves : ∀ l ∈ r.saves, r.text.isBoundary l.offset = true

variable {r : Reader}

theorem Sound.movedOver (h : r.Sound) {t rest : Text} (ahead : r.remaining = t ++ rest) :
    (r.movedOver t).Sound :=
  ⟨valid_movedOver h.valid ahead, h.saves⟩

theorem Sound.advance (h : r.Sound) (n : Nat) : (r.advance n).Sound :=
  h.movedOver (List.take_append_drop n r.remaining).symm

theorem Sound.read (h : r.Sound) (n : Nat) : (r.read n).2.Sound := by
  unfold Reader.read
  split
  · exact h.advance (n + 1)
  · exact h

theorem Sound.readText (h : r.Sound) (n : Nat) : (r.readText n).2.Sound := by
  rw [readText_eq h.valid]
  dsimp only
  split
  · exact h.advance n
  · exact h

theorem Sound.save (h : r.Sound) : r.save.Sound := by
  refine ⟨h.valid, fun l hl => ?_⟩
  rcases List.mem_cons.mp hl with rfl | earlier
  · exact h.valid
  · exact h.saves l earlier

theorem Sound.load (h : r.Sound) : r.load.2.Sound := by
  unfold Reader.load
  split
  · exact h
  · next saved saves found =>
    have boundary := h.saves
    rw [found] at boundary
    exact ⟨boundary saved List.mem_cons_self, fun l hl => boundary l (List.mem_cons_of_mem _ hl)⟩

theorem Sound.discard (h : r.Sound) : r.discard.2.Sound := by
  unfold Reader.discard
  split
  · exact h
  · next saved saves found =>
    have boundary := h.saves
    rw [found] at boundary
    exact ⟨h.valid, fun l hl => boundary l (List.mem_cons_of_mem _ hl)⟩

theorem Sound.rewind (h : r.Sound) (l : Location) : (r.rewind l).2.Sound := by
  unfold Reader.rewind
  split
  · next boundary => exact ⟨boundary, h.saves⟩
  · exact h

theorem Reachable.sound (h : r.Reachable) : r.Sound := by
  induction h with
  | ofText t => exact ⟨valid_ofText t, fun _ hl => absurd hl List.not_mem_nil⟩
  | advance n _ ih => exact ih.advance n
  | read n _ ih => exact ih.read n
  | readText n _ ih => exact ih.readText n
  | save _ ih => exact ih.save
  | load _ ih => exact ih.load
  | discard _ ih => exact ih.discard
  | rewind l _ ih => exact ih.rewind l

theorem Reachable.valid (h : r.Reachable) : r.Valid := h.sound.valid

end Peg.Reader
