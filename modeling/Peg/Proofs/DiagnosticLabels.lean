import Peg.Proofs.FailureChains

/-!
# What the labels of a diagnostic cover

A label starts at the byte where a failure happened and is one byte wide, or empty at the end of
the text. The failures of a run lie between two characters, so there is a character that starts
where the label does, except at the end. The label covers that character if it is one byte wide,
and no more than its first byte if it is wider.

* `Engine.run_labels`: which labels a failed run has, where they start, and when they cover a
  character.
* `Engine.label_cuts_character`: a label that does not.
-/

namespace Peg

/-- No character of more than one byte starts at the byte `offset`. -/
def Text.NarrowAt (t : Text) (offset : Nat) : Prop :=
  ∀ rest ∈ t.dropBytes? offset, ∀ c ∈ rest.head?, c.utf8Size = 1

-- Written out, since an instance that goes through all characters may be found otherwise.
instance (t : Text) (offset : Nat) : Decidable (t.NarrowAt offset) :=
  have (rest : Text) : Decidable (∀ c ∈ rest.head?, c.utf8Size = 1) :=
    Option.decidableForallMem rest.head?
  Option.decidableForallMem (t.dropBytes? offset)

namespace Label

/-- The label covers the character that starts where it does, all of it and nothing else, or it is
empty at the end of the text. -/
def CoversCharacter (text : Text) (l : Label) : Prop :=
  ∃ rest ∈ text.dropBytes? l.offset, l.width = Text.byteSize (rest.take 1)

instance (text : Text) (l : Label) : Decidable (l.CoversCharacter text) :=
  Option.decidableExistsMem (text.dropBytes? l.offset)

/-- The label tells the failure where it happened, between two characters. It is one byte wide, or
empty at the end of the text. -/
structure PointsAt (text : Text) (f : Failure) (l : Label) : Prop where
  remark : l.remark = f.message
  offset : l.offset = f.location.offset
  width : ∃ rest ∈ text.dropBytes? l.offset, l.width = (rest.take 1).length

/-- A label that points at a failure covers a character unless that is wider than the label. -/
theorem PointsAt.covers_iff {text : Text} {f : Failure} {l : Label} (h : l.PointsAt text f) :
    l.CoversCharacter text ↔ text.NarrowAt l.offset := by
  obtain ⟨rest, cut, width⟩ := h.width
  have cut : text.dropBytes? l.offset = some rest := cut
  rw [CoversCharacter, Text.NarrowAt, cut, width]
  cases rest with
  | nil => simp
  | cons c rest => simp [eq_comm]

end Label

namespace Diagnostic

variable {d : Diagnostic}

theorem pointsAt_label {f : Failure} (boundary : d.text.isBoundary f.location.offset = true) :
    (d.label f).PointsAt d.text f := by
  obtain ⟨rest, cut⟩ := Option.isSome_iff_exists.mp boundary
  have inside := Text.le_byteSize_of_isBoundary boundary
  have start : (d.label f).offset = f.location.offset := Nat.min_eq_left inside
  refine ⟨rfl, start, rest, start ▸ cut, ?_⟩
  obtain ⟨front, split, size⟩ := Text.dropBytes?_eq_some_iff.mp cut
  have total : d.text.byteSize = f.location.offset + rest.byteSize := by
    rw [split, Text.byteSize_append, size]
  show (if (d.label f).offset < d.text.byteSize then 1 else 0) = _
  rw [start, total]
  cases rest with
  | nil => simp
  | cons c rest =>
    have positive := c.utf8Size_pos
    rw [if_pos (by rw [Text.byteSize_cons]; omega)]
    rfl

/-- There is a second label for an innermost cause that lies elsewhere. -/
theorem exists_labels
    (boundary : ∀ f ∈ d.error.chain, d.text.isBoundary f.location.offset = true) :
    ∃ here there?, d.labels = here :: Option.toList there? ∧
      here.PointsAt d.text d.error.top ∧
      (∀ there ∈ there?, there.PointsAt d.text d.error.rootCause) ∧
      (there?.isSome = true ↔ d.error.causes ≠ [] ∧
        d.error.rootCause.location.offset ≠ d.error.top.location.offset) := by
  have here := pointsAt_label (boundary _ List.mem_cons_self)
  have there := pointsAt_label (boundary _ d.error.rootCause_mem_chain)
  have same : d.labels =
      if d.error.causes = [] ∨ d.error.rootCause.location.offset = d.error.top.location.offset
      then [d.label d.error.top] else [d.label d.error.top, d.label d.error.rootCause] := by
    simp [labels, here.offset]
  by_cases single :
      d.error.causes = [] ∨ d.error.rootCause.location.offset = d.error.top.location.offset
  · rw [if_pos single] at same
    exact ⟨_, none, same, here, nofun, by simpa [or_iff_not_imp_left] using single⟩
  · rw [if_neg single] at same
    refine ⟨_, some _, same, here, fun _ found => ?_, by simpa using single⟩
    exact Option.some.inj found ▸ there

end Diagnostic

namespace Engine

variable {π τ : Type} [CharTest π]

/-- A checked matcher is run from where a reader has been left, and fails. The first label points
at the failure. There is a second one, which points at the innermost cause, if that is another
failure and lies elsewhere. Each label starts at the byte where its failure happened, and covers
the character there or the end of the text, unless the character is wider than one byte. -/
theorem run_labels {t : RuleTable π τ} {m : Matcher π} (checked : t.problem? m = none)
    (settings : Settings) {reader : Reader} (reachable : reader.Reachable) :
    ∃ a, Engine.run ⟨t, settings⟩ m reader = .ok a ∧
      ∀ d, a.result.diagnostic? reader.text = some d →
        (∃ here there?, d.labels = here :: Option.toList there? ∧
          here.PointsAt reader.text d.error.top ∧
          (∀ there ∈ there?, there.PointsAt reader.text d.error.rootCause) ∧
          (there?.isSome = true ↔ d.error.causes ≠ [] ∧
            d.error.rootCause.location.offset ≠ d.error.top.location.offset)) ∧
        ∀ l ∈ d.labels, l.CoversCharacter reader.text ↔ reader.text.NarrowAt l.offset := by
  obtain ⟨a, ran, onward⟩ := run_fails_onward checked settings reachable
  refine ⟨a, ran, fun d told => ?_⟩
  obtain ⟨error, failed, rfl⟩ := Option.map_eq_some_iff.mp told
  obtain ⟨_, between, _⟩ := onward error failed
  obtain ⟨here, there?, all, first, second, needed⟩ :=
    Diagnostic.exists_labels (d := ⟨error, reader.text⟩) fun f hf => (between f hf).2.2
  refine ⟨⟨here, there?, all, first, second, needed⟩, fun l hl => ?_⟩
  rw [all] at hl
  rcases List.mem_cons.mp hl with rfl | there
  · exact first.covers_iff
  · exact (second l (Option.mem_toList.mp there)).covers_iff

/-- Behind the first character of `"-éa=ß"` a choice fails whose first alternative wants one more
letter where the sign is. The label of the choice covers one byte of `'é'`, that of the innermost
cause covers the sign. -/
theorem labels_of_choice :
    let word : Matcher Empty := .repetition (.char (.range 'a' 'z')) 2 none
    let m : Matcher Empty :=
      .choice [.sequence [.char (.only 'é'), .ref "word"], .char (.only 'ß')]
    let rules : List (Rule Empty Nat) := [⟨"word", word, default, none⟩]
    let t : RuleTable Empty Nat := ⟨rules, NullMap.compute rules, some "word", {}⟩
    let text : Text := ['-', 'é', 'a', '=', 'ß']
    let reader := (Reader.ofText text).advance 1
    let here : Label := ⟨"no alternative matched", 1, 1⟩
    let there : Label := ⟨"expected [a-z]", 4, 1⟩
    t.problem? m = none ∧ reader.Reachable ∧
      ∃ a d, Engine.run ⟨t, {}⟩ m reader = .ok a ∧ a.result.diagnostic? text = some d ∧
        d.labels = [here, there] ∧ ¬ here.CoversCharacter text ∧ there.CoversCharacter text := by
  intro word m rules t text reader here there
  have checked : t.problem? m = none := by decide
  have reachable : reader.Reachable := .advance 1 (.ofText text)
  obtain ⟨a, ran, labels⟩ := run_labels checked {} reachable
  have same : Engine.execute ⟨t, {}⟩ m reader = a := execute_of_run checked ran
  have told : (a.result.diagnostic? text).map (·.labels) = some [here, there] := by
    rw [← same]
    decide +kernel
  obtain ⟨d, diagnosed, all⟩ := Option.map_eq_some_iff.mp told
  obtain ⟨_, covers⟩ := labels d diagnosed
  rw [all] at covers
  refine ⟨checked, reachable, a, d, ran, diagnosed, all, ?_, ?_⟩
  · exact (covers here List.mem_cons_self).not.mpr (by decide)
  · exact (covers there (by simp)).mpr (by decide)

/-- Where `'a'` is wanted and `'é'` comes, the label covers one byte of the two. -/
theorem label_cuts_character :
    let g : Grammar Empty Nat := ⟨[], none, {}⟩
    let t : RuleTable Empty Nat := .empty
    let m : Matcher Empty := .char (.only 'a')
    let text : Text := ['é']
    let l : Label := ⟨"expected 'a'", 0, 1⟩
    g.build = .ok (t, [.built 0 "<none>" false]) ∧ t.problem? m = none ∧
      ∃ a d, t.engine.run m (.ofText text) = .ok a ∧ a.result.diagnostic? text = some d ∧
        d.labels = [l] ∧ ¬ l.CoversCharacter text := by
  intro g t m text l
  exact ⟨Grammar.build_of_problem? (by decide) rfl, by decide, _, _, rfl, rfl, by decide,
    by decide⟩

end Engine

end Peg
