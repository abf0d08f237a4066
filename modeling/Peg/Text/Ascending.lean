import Peg.Text.Basic

/-!
# Ascending lists of characters

A set of characters is kept as the list of its members, each once and in the
order of their code points. `Text.ascending` brings any list into that form.
-/

namespace Peg.Text

/-- The list holds its characters in order, each once. -/
def IsAscending (cs : List Char) : Prop := cs.Pairwise (· < ·)

/-- Puts a character in its place, unless it is there already. -/
def insertChar (c : Char) : List Char → List Char
  | [] => [c]
  | x :: xs => if c < x then c :: x :: xs else if c = x then x :: xs else x :: insertChar c xs

/-- The characters of a list, each once and ascending. -/
def ascending (cs : List Char) : List Char :=
  cs.foldr insertChar []

/-- Each character comes before the next. -/
def isAscending : List Char → Bool
  | a :: b :: cs => a < b && isAscending (b :: cs)
  | _ => true

@[simp] theorem mem_insertChar {x c : Char} {cs : List Char} :
    x ∈ insertChar c cs ↔ x = c ∨ x ∈ cs := by
  induction cs with
  | nil => simp [insertChar]
  | cons y ys ih =>
    unfold insertChar
    split
    · simp
    · split
      · rename_i same
        simp [same]
      · simp [ih, or_left_comm]

@[simp] theorem mem_ascending {x : Char} {cs : List Char} : x ∈ ascending cs ↔ x ∈ cs := by
  induction cs with
  | nil => simp [ascending]
  | cons c cs ih =>
    have step : ascending (c :: cs) = insertChar c (ascending cs) := rfl
    simp [step, ih]

theorem lt_or_eq_or_gt (a b : Char) : a < b ∨ a = b ∨ b < a := by
  rcases Nat.lt_trichotomy a.toNat b.toNat with below | same | above
  · exact .inl below
  · exact .inr (.inl (Char.toNat_inj.mp same))
  · exact .inr (.inr above)

theorem isAscending_insertChar {c : Char} {cs : List Char} (sorted : IsAscending cs) :
    IsAscending (insertChar c cs) := by
  induction cs with
  | nil => simp [IsAscending, insertChar]
  | cons y ys ih =>
    obtain ⟨first, rest⟩ := List.pairwise_cons.mp sorted
    unfold insertChar
    split
    · rename_i below
      refine List.pairwise_cons.mpr ⟨fun x member => ?_, sorted⟩
      rcases List.mem_cons.mp member with rfl | inside
      · exact below
      · exact Char.lt_trans below (first x inside)
    · split
      · exact sorted
      · rename_i notBelow notSame
        refine List.pairwise_cons.mpr ⟨fun x member => ?_, ih rest⟩
        rcases mem_insertChar.mp member with rfl | inside
        · rcases lt_or_eq_or_gt x y with below | same | above
          · exact absurd below notBelow
          · exact absurd same notSame
          · exact above
        · exact first x inside

theorem isAscending_ascending (cs : List Char) : IsAscending (ascending cs) := by
  induction cs with
  | nil => exact List.Pairwise.nil
  | cons c cs ih => exact isAscending_insertChar ih

end Peg.Text
