import Peg.Text.Ascending

/-!
# Character classes

A class accepts single characters: one given character, a range of code points,
an ascending list, or whatever a named test accepts. Named tests are supplied by
the user of the library as values of a type with a `CharTest` instance; two tests
are the same exactly when they are equal values.
-/

namespace Peg

/-- Values that stand for named tests of characters. -/
class CharTest (π : Type) where
  name : π → String
  accepts : π → Char → Bool

/-- Halves an ascending list until the one entry that can be `c` is left, for at
most the given number of halvings. -/
def bisect (c : Char) : Nat → List Char → Bool
  | 0, cs => cs == [c]
  | bound + 1, cs =>
    if cs.length ≤ 1 then cs == [c]
    else
      match cs.drop (cs.length / 2) with
      | [] => false
      | middle :: above =>
        if c < middle then bisect c bound (cs.take (cs.length - cs.length / 2))
        else bisect c bound (middle :: above)

/-- In an ascending list, halving finds exactly the members. -/
theorem bisect_iff_mem {c : Char} {bound : Nat} {cs : List Char}
    (sorted : Text.IsAscending cs) (enough : cs.length ≤ bound) :
    bisect c bound cs = true ↔ c ∈ cs := by
  have short : ∀ ds : List Char, ds.length ≤ 1 → ((ds == [c]) = true ↔ c ∈ ds) := by
    intro ds atMost
    match ds, atMost with
    | [], _ => simp
    | [x], _ =>
      simp only [beq_iff_eq, List.cons.injEq, and_true, List.mem_singleton]
      exact eq_comm
  induction bound generalizing cs with
  | zero => exact short cs (by omega)
  | succ bound ih =>
    unfold bisect
    split
    · exact short cs ‹_›
    · rename_i long
      have parts := List.take_append_drop (cs.length / 2) cs
      cases upper : cs.drop (cs.length / 2) with
      | nil =>
        have size := congrArg List.length upper
        rw [List.length_drop, List.length_nil] at size
        omega
      | cons middle above =>
        rw [upper] at parts
        have whole : Text.IsAscending (cs.take (cs.length / 2) ++ middle :: above) :=
          parts.symm ▸ sorted
        obtain ⟨-, upperSorted, across⟩ := List.pairwise_append.mp whole
        have size : (middle :: above).length = cs.length - cs.length / 2 := by
          rw [← upper, List.length_drop]
        simp only
        split
        · rename_i below
          have found := @ih (cs.take (cs.length - cs.length / 2))
            (sorted.sublist (List.take_sublist _ _)) (by rw [List.length_take]; omega)
          refine found.trans ⟨List.mem_of_mem_take, fun member => ?_⟩
          rw [← parts] at member
          rcases List.mem_append.mp member with low | high
          · exact List.take_subset_take_left cs (by omega) low
          · rcases List.mem_cons.mp high with rfl | higher
            · exact absurd below (Char.lt_irrefl _)
            · have order := (List.pairwise_cons.mp upperSorted).1 _ higher
              exact absurd (Char.lt_trans below order) (Char.lt_irrefl _)
        · rename_i notBelow
          have found := @ih (middle :: above) upperSorted (by omega)
          refine found.trans ⟨fun high => ?_, fun member => ?_⟩
          · exact parts ▸ List.mem_append_right _ high
          · rw [← parts] at member
            rcases List.mem_append.mp member with low | high
            · exact absurd (across c low middle List.mem_cons_self) notBelow
            · exact high

/-- What one character may be. -/
inductive CharClass (π : Type) where
  | only (c : Char)
  | range (lo hi : Char)
  | oneOf (cs : List Char)
  | satisfying (p : π)
deriving DecidableEq, Repr

namespace CharClass

variable {π : Type}

/-- Lists are searched by halving, so a list that is not ascending may fail to
accept a character that it holds. -/
def accepts [CharTest π] : CharClass π → Char → Bool
  | only c, x => x == c
  | range lo hi, x => lo ≤ x && x ≤ hi
  | oneOf cs, x => bisect x cs.length cs
  | satisfying p, x => CharTest.accepts p x

end CharClass

end Peg
