import Peg.Source.Reader

/-!
# Moving by bytes and moving by characters

A reader can be moved over a number of characters, and over the bytes of a text that has been
seen to be ahead. Texts are cut at byte offsets, and such an offset may lie inside a character.
A cursor that stands between two characters never comes to one of those, and the two ways of
moving leave one reader, with one line, one column and one offset (`Reader.moves_agree`).
-/

namespace Peg.Reader

variable {r : Reader}

theorem isNext_iff {t : Text} : r.isNext t = true ↔ ∃ rest, r.remaining = t ++ rest :=
  List.isPrefixOf_iff_prefix.trans (exists_congr fun _ => eq_comm)

theorem read_eq (r : Reader) (n : Nat) :
    r.read n = (r.peek n, if (r.peek n).isSome then r.advance (n + 1) else r) := by
  unfold read
  split
  · next found => rw [found]; rfl
  · next none => rw [none]; rfl

/-- The second move goes on from where the first has ended, also if that is the end of the
text. -/
theorem advance_advance (valid : r.Valid) (a b : Nat) :
    (r.advance a).advance b = r.advance (a + b) := by
  have location : (r.location.advanceOver (r.remaining.take a)).advanceOver
      ((r.remaining.drop a).take b) = r.location.advanceOver (r.remaining.take (a + b)) := by
    rw [List.take_add, Location.advanceOver_append]
  rw [advance_eq_movedOver (r.advance a), remaining_advance valid]
  exact congrArg (fun l => { r with location := l }) location

/-- Where the cursor stands between two characters, the bytes of a text that is ahead lead to
where its characters lead. The next `n` characters can be looked at if there are as many ahead, and
reading them moves over `n` characters. Reading a single character moves over it and those before
it, and nothing moves where there is none. Two moves one after the other are one move. Numbers
beyond the end of the text are meant as well. -/
theorem moves_agree (valid : r.Valid) :
    (∀ t, r.isNext t = true → r.advanceBytes t.byteSize = r.advance t.length) ∧
    (∀ n t, r.peekText n = some t ↔ n ≤ r.remaining.length ∧ t = r.remaining.take n) ∧
    (∀ n, r.readText n = (r.peekText n, if (r.peekText n).isSome then r.advance n else r)) ∧
    (∀ n, r.read n = (r.peek n, if (r.peek n).isSome then r.advance (n + 1) else r)) ∧
    ∀ a b, (r.advance a).advance b = r.advance (a + b) := by
  refine ⟨fun t next => ?_, fun n t => peekText_eq_some_iff, readText_eq valid, read_eq r,
    advance_advance valid⟩
  obtain ⟨rest, ahead⟩ := isNext_iff.mp next
  exact advanceBytes_eq_advance valid ahead

/-- Over `"aé\n€b"`, from behind the `'a'`: into the second line by three bytes or by two
characters, over all that is left, and to the end with the largest number of a machine word. -/
theorem moves_agree_two_lines :
    let r : Reader := ⟨['a', 'é', '\n', '€', 'b'], ⟨1, 2, 1⟩, [⟨1, 1, 0⟩]⟩
    let largest := 18446744073709551615
    r.Valid ∧ r.isNext ['é', '\n'] = true ∧ r.advanceBytes 3 = r.advance 2 ∧
      (r.advance 2).location = ⟨2, 1, 4⟩ ∧
      r.readText 4 = (some ['é', '\n', '€', 'b'], r.advance 4) ∧ r.readText 5 = (none, r) ∧
      r.read 2 = (some '€', r.advance 3) ∧ r.read largest = (none, r) ∧
      (r.advance 3).advance (largest - 3) = r.advance largest := by
  intro r largest
  have valid : r.Valid := rfl
  have next : r.isNext ['é', '\n'] = true := rfl
  obtain ⟨bytes, texts, readTexts, reads, moves⟩ := moves_agree valid
  have all : r.peekText 4 = some ['é', '\n', '€', 'b'] := (texts 4 _).mpr ⟨by decide, rfl⟩
  have more : r.peekText 5 = none :=
    Option.eq_none_iff_forall_ne_some.mpr fun t found => absurd ((texts 5 t).mp found).1 (by decide)
  have beyond : r.peek largest = none :=
    List.getElem?_eq_none (show r.remaining.length ≤ largest by decide)
  have sum : 3 + (largest - 3) = largest := by decide
  refine ⟨valid, next, bytes _ next, rfl, ?_, ?_, reads 2, ?_, ?_⟩
  · rw [readTexts, all]
    rfl
  · rw [readTexts, more]
    rfl
  · rw [reads, beyond]
    rfl
  · rw [moves, sum]

end Peg.Reader
