import Mathlib.Data.List.Basic
import Peg.Proofs.Form

/-!
# The form of optimized matchers

Optimizing a matcher moves alternatives out of inner choices and merges the single
characters among them. It leaves alone everything that the checks of a grammar look at:
the rules named (`Matcher.ruleNames_optimize`), those applied before anything is consumed
(`Matcher.leadingRefs_optimize`), whether the matcher is nullable
(`Matcher.isNullable_optimize`), and whether it is formed (`Matcher.Formed.optimize`).
-/

namespace Peg

/-! ## Segments -/

namespace Segment

variable {α : Type}

def members : Segment α → List α
  | run ms => ms
  | other m => [m]

/-- A segment as `segments` makes it. -/
def Fits (inRun : α → Bool) : Segment α → Prop
  | run ms => ms ≠ [] ∧ ∀ m ∈ ms, inRun m = true
  | other m => inRun m = false

end Segment

section

variable {α : Type} (inRun : α → Bool)

theorem flatMap_members_segments (as : List α) : (segments inRun as).flatMap (·.members) = as := by
  induction as with
  | nil => rfl
  | cons a as ih =>
    unfold segments
    split
    · split
      · next ms rest found =>
        rw [found, List.flatMap_cons] at ih
        rw [List.flatMap_cons]
        exact congrArg (a :: ·) ih
      · rw [List.flatMap_cons, ih]
        rfl
    · rw [List.flatMap_cons, ih]
      rfl

theorem fits_segments (as : List α) : ∀ s ∈ segments inRun as, s.Fits inRun := by
  induction as with
  | nil => exact nofun
  | cons a as ih =>
    unfold segments
    split
    · next first =>
      split
      · next ms rest found =>
        rw [found] at ih
        obtain ⟨inner, behind⟩ := List.forall_mem_cons.mp ih
        exact List.forall_mem_cons.mpr
          ⟨⟨List.cons_ne_nil a ms, List.forall_mem_cons.mpr ⟨first, inner.2⟩⟩, behind⟩
      · exact List.forall_mem_cons.mpr
          ⟨⟨List.cons_ne_nil a [], List.forall_mem_cons.mpr ⟨first, nofun⟩⟩, ih⟩
    · next first =>
      exact List.forall_mem_cons.mpr ⟨Bool.eq_false_iff.mpr first, ih⟩

end

namespace Matcher

variable {π : Type}

/-! ## Reduced choices -/

theorem eq_char_of_isSingleChar {m : Matcher π} (h : m.isSingleChar = true) :
    ∃ cls, m = char cls := by
  cases m with
  | char cls => exact ⟨cls, rfl⟩
  | _ => exact absurd h Bool.false_ne_true

theorem exists_map_char {ms : List (Matcher π)} (h : ∀ m ∈ ms, m.isSingleChar = true) :
    ∃ run : List (CharClass π), ms = run.map char := by
  induction ms with
  | nil => exact ⟨[], rfl⟩
  | cons m ms ih =>
    obtain ⟨first, rest⟩ := List.forall_mem_cons.mp h
    obtain ⟨cls, rfl⟩ := eq_char_of_isSingleChar first
    obtain ⟨run, rfl⟩ := ih rest
    exact ⟨cls :: run, rfl⟩

theorem filterMap_charClass?_map_char (run : List (CharClass π)) :
    (run.map char).filterMap charClass? = run := by
  simp [List.filterMap_map, Function.comp_def, charClass?]

/-- What holds alike of two ways to make lists from the members of a list holds of the
lists put together, if it goes along with putting lists together. -/
theorem apply_flatMap_congr {α β γ : Type} {F : List β → γ}
    (append : ∀ {as bs cs ds}, F as = F bs → F cs = F ds → F (as ++ cs) = F (bs ++ ds))
    {f g : α → List β} {xs : List α} (each : ∀ x ∈ xs, F (f x) = F (g x)) :
    F (xs.flatMap f) = F (xs.flatMap g) := by
  induction xs with
  | nil => rfl
  | cons x xs ih =>
    obtain ⟨first, rest⟩ := List.forall_mem_cons.mp each
    rw [List.flatMap_cons, List.flatMap_cons]
    exact append first (ih rest)

/-- Whatever can be told of lists piece by piece is the same of a reduced choice as of
its children, if it is the same of a merged run as of the run, and the same of a choice
as of its alternatives. -/
theorem apply_reduceChoice {γ : Type} {F : List (Matcher π) → γ} {ms : List (Matcher π)}
    (append : ∀ {as bs cs ds}, F as = F bs → F cs = F ds → F (as ++ cs) = F (bs ++ ds))
    (merged : ∀ run, (∀ cls ∈ run, char cls ∈ ms.flatMap alternatives) →
      F ((CharRun.merge run).map char) = F (run.map char))
    (spliced : ∀ below, choice below ∈ ms → F below = F [choice below]) :
    F (reduceChoice ms) = F ms := by
  -- The runs are merged last, so this is undone first, and then the splicing.
  have splice : F (ms.flatMap alternatives) = F (ms.flatMap fun m => [m]) := by
    refine apply_flatMap_congr append fun m hm => ?_
    unfold alternatives
    split
    · exact spliced _ hm
    · rfl
  have whole := flatMap_members_segments isSingleChar (ms.flatMap alternatives)
  have merge : F (reduceChoice ms) =
      F ((segments isSingleChar (ms.flatMap alternatives)).flatMap (·.members)) := by
    refine apply_flatMap_congr append fun s hs => ?_
    have fits := fits_segments _ _ s hs
    cases s with
    | run members =>
      obtain ⟨run, rfl⟩ := exists_map_char fits.2
      rw [mergeSegment, filterMap_charClass?_map_char]
      refine merged run fun cls hcls => ?_
      rw [← whole]
      exact List.mem_flatMap.mpr ⟨_, hs, List.mem_map_of_mem hcls⟩
    | other m => rfl
  rw [merge, whole, splice, List.flatMap_singleton']

theorem apply_choiceOf {γ : Type} {f : Matcher π → γ} (one : ∀ m, f m = f (choice [m]))
    (ms : List (Matcher π)) : f (choiceOf ms) = f (choice ms) := by
  unfold choiceOf
  split
  · exact one _
  · rfl

theorem apply_optionalOf {γ : Type} {f : Matcher π → γ}
    (once : ∀ m, f (optional (optional m)) = f (optional m)) (m : Matcher π) :
    f (optionalOf m) = f (optional m) := by
  unfold optionalOf
  split
  · exact (once _).symm
  · rfl

/-- What is collected from the children of a choice is not changed by optimizing the choice, if
it is not by merging a run and not by optimizing the children. -/
theorem collect_optimize_choice {β : Type} {f : Matcher π → List β}
    (merged : ∀ run, ((CharRun.merge run).map Matcher.char).flatMap f = (run.map .char).flatMap f)
    (choice : ∀ ms, f (choice ms) = ms.flatMap f)
    {ms : List (Matcher π)} (ih : ∀ m ∈ ms, f m.optimize = f m) :
    f (Matcher.choice ms).optimize = f (.choice ms) := by
  have single : ∀ m, f m = f (.choice [m]) := fun m => by rw [choice, List.flatMap_singleton]
  have reduced : (reduceChoice (optimizeAll ms)).flatMap f = (optimizeAll ms).flatMap f := by
    refine apply_reduceChoice (F := (·.flatMap f))
      (fun hab hcd => ?_) (fun run _ => merged run) fun below _ => ?_
    · rw [List.flatMap_append, List.flatMap_append, hab, hcd]
    · rw [List.flatMap_singleton, choice]
  rw [optimize, apply_choiceOf single, choice, reduced, optimizeAll_eq_map, List.flatMap_map,
    choice]
  exact List.flatMap_congr ih

/-- From single characters nothing is collected. -/
theorem flatMap_map_char {β : Type} {f : Matcher π → List β} (char : ∀ cls, f (char cls) = [])
    (run : List (CharClass π)) : (run.map Matcher.char).flatMap f = [] := by
  rw [List.flatMap_map]
  exact List.flatMap_eq_nil_iff.mpr fun cls _ => char cls

/-- What is collected from the nodes of a matcher, and neither from choices nor from optional
matchers, is collected in the same order when the matcher is optimized, if that is so for the
runs that are merged. -/
theorem filterMap_subtrees_optimize {β : Type} {f : Matcher π → Option β}
    (choice : ∀ ms, f (choice ms) = none) (optional : ∀ m, f (optional m) = none)
    (merged : ∀ run, (CharRun.merge run).filterMap (fun cls => f (.char cls)) =
      run.filterMap fun cls => f (.char cls))
    (kept : ∀ m : Matcher π, (∀ ms, m ≠ .choice ms) → (∀ n, m ≠ .optional n) →
      f m.optimize = f m)
    (m : Matcher π) : m.optimize.subtrees.filterMap f = m.subtrees.filterMap f := by
  induction m with
  | choice ms ih =>
    have leaves : ∀ run : List (CharClass π),
        (run.map Matcher.char).flatMap (fun m => m.subtrees.filterMap f) =
          run.filterMap fun cls => f (.char cls) := fun run => by
      rw [List.flatMap_map, List.filterMap_eq_flatMap_toList]
      refine List.flatMap_congr fun cls _ => ?_
      rw [filterMap_subtrees]
      exact List.append_nil _
    refine collect_optimize_choice (f := (·.subtrees.filterMap f))
      (fun run => ?_) (fun ms => ?_) ih
    · rw [leaves, leaves, merged]
    · rw [filterMap_subtrees, choice]
      rfl
  | optional m ih =>
    have above : ∀ m : Matcher π,
        (Matcher.optional m).subtrees.filterMap f = m.subtrees.filterMap f := fun m => by
      rw [filterMap_subtrees, optional]
      simp [children]
    rw [optimize, apply_optionalOf (f := (·.subtrees.filterMap f)) fun m => above (.optional m),
      above, above, ih]
  | sequence ms ih =>
    rw [filterMap_subtrees, kept, optimize, optimizeAll_eq_map,
      filterMap_subtrees f (.sequence ms)]
    · simp only [children, List.flatMap_map]
      rw [List.flatMap_congr ih]
    · rintro _ ⟨⟩
    · rintro _ ⟨⟩
  | repetition m min max ih | absent m ih | rule name m ih | ignore m ih | join m ih | mark m ih
  | save name m ih =>
    rw [filterMap_subtrees, kept, optimize, filterMap_subtrees f]
    · simp only [children, List.flatMap_cons, ih]
    · rintro _ ⟨⟩
    · rintro _ ⟨⟩
  | char cls | text t | endOfInput | ref name | load name => rfl

/-! ## What the checks look at -/

theorem ruleNames_optimize (m : Matcher π) : m.optimize.ruleNames = m.ruleNames := by
  refine filterMap_subtrees_optimize (fun _ => rfl) (fun _ => rfl) (fun run => ?_)
    (fun m noChoice notOptional => ?_) m
  · simp [ruleName?]
  · cases m with
    | choice ms => exact absurd rfl (noChoice ms)
    | optional n => exact absurd rfl (notOptional n)
    | _ => rfl

variable (known : String → Bool)

theorem isNullable_optimize (m : Matcher π) :
    m.optimize.isNullable known = m.isNullable known := by
  induction m with
  | choice ms ih =>
    have none : ∀ run : List (CharClass π),
        (run.map Matcher.char).any (isNullable known) = false := fun run => by
      rw [List.any_map]
      exact List.any_eq_false.mpr fun cls _ => Bool.false_ne_true
    have reduced : (reduceChoice (optimizeAll ms)).any (isNullable known) =
        (optimizeAll ms).any (isNullable known) := by
      refine apply_reduceChoice (F := (·.any (isNullable known)))
        (fun hab hcd => ?_) (fun run _ => ?_) fun below _ => ?_
      · rw [List.any_append, List.any_append, hab, hcd]
      · rw [none, none]
      · simp [isNullable, anyNullable_eq_any]
    have single : ∀ m : Matcher π, m.isNullable known = (choice [m]).isNullable known := fun m => by
      simp [isNullable, anyNullable]
    rw [optimize, apply_choiceOf single, isNullable, isNullable, anyNullable_eq_any,
      anyNullable_eq_any, reduced, optimizeAll_eq_map, List.any_map]
    refine Bool.eq_iff_iff.mpr ?_
    simp only [List.any_eq_true, Function.comp]
    exact exists_congr fun m => and_congr_right fun hm => by rw [ih m hm]
  | sequence ms ih =>
    rw [optimize, isNullable, isNullable, allNullable_eq_all, allNullable_eq_all,
      optimizeAll_eq_map, List.all_map]
    refine Bool.eq_iff_iff.mpr ?_
    simp only [List.all_eq_true, Function.comp]
    exact forall₂_congr fun m hm => by rw [ih m hm]
  | optional m ih =>
    exact apply_optionalOf (f := (isNullable known ·)) (fun _ => rfl) _
  | repetition m min max ih => rw [optimize, isNullable, isNullable, ih]
  | absent m ih => rfl
  | rule name m ih | ignore m ih | join m ih | mark m ih | save name m ih => exact ih
  | char cls | text t | endOfInput | ref name | load name => rfl

theorem leadingOfSequence_optimize {ms : List (Matcher π)}
    (ih : ∀ m ∈ ms, m.optimize.leadingRefs known = m.leadingRefs known) :
    leadingOfSequence known (ms.map optimize) = leadingOfSequence known ms := by
  induction ms with
  | nil => rfl
  | cons m ms ih' =>
    obtain ⟨first, rest⟩ := List.forall_mem_cons.mp ih
    rw [List.map_cons, leadingOfSequence, leadingOfSequence, first, isNullable_optimize, ih' rest]

theorem leadingRefs_optimize (m : Matcher π) :
    m.optimize.leadingRefs known = m.leadingRefs known := by
  induction m with
  | choice ms ih =>
    refine collect_optimize_choice (fun run => ?_) (leadingOfChoice_eq_flatMap known) ih
    rw [flatMap_map_char fun _ => rfl, flatMap_map_char fun _ => rfl]
  | sequence ms ih =>
    rw [optimize, leadingRefs, leadingRefs, optimizeAll_eq_map, leadingOfSequence_optimize known ih]
  | optional m ih =>
    exact (apply_optionalOf (f := (leadingRefs known ·)) (fun _ => rfl) _).trans ih
  | repetition m min max ih | absent m ih | rule name m ih | ignore m ih | join m ih | mark m ih
  | save name m ih => exact ih
  | char cls | text t | endOfInput | ref name | load name => rfl

/-! ## Formed matchers -/

variable {known}

theorem formed_char {cls : CharClass π} : (char cls).Formed known ↔ cls.Proper :=
  formed_iff.trans (and_iff_left nofun)

theorem formed_choice {ms : List (Matcher π)} :
    (choice ms).Formed known ↔ ms ≠ [] ∧ ∀ m ∈ ms, m.Formed known := formed_iff

/-- The alternatives of formed matchers are formed. -/
theorem formed_of_mem_alternatives {ms : List (Matcher π)} (formed : ∀ m ∈ ms, m.Formed known)
    {m : Matcher π} (hm : m ∈ ms.flatMap alternatives) : m.Formed known := by
  obtain ⟨n, hn, inside⟩ := List.mem_flatMap.mp hm
  unfold alternatives at inside
  split at inside
  · exact (formed_choice.mp (formed _ hn)).2 m inside
  · exact List.mem_singleton.mp inside ▸ formed n hn

theorem formed_of_mem_members {ms : List (Matcher π)} (formed : ∀ m ∈ ms, m.Formed known)
    {s : Segment (Matcher π)} (hs : s ∈ segments isSingleChar (ms.flatMap alternatives))
    {m : Matcher π} (hm : m ∈ s.members) : m.Formed known := by
  refine formed_of_mem_alternatives formed ?_
  rw [← flatMap_members_segments isSingleChar (ms.flatMap alternatives)]
  exact List.mem_flatMap.mpr ⟨s, hs, hm⟩

theorem formed_mergeSegment {s : Segment (Matcher π)} (fits : s.Fits isSingleChar)
    (formed : ∀ m ∈ s.members, m.Formed known) : ∀ m ∈ mergeSegment s, m.Formed known := by
  cases s with
  | run members =>
    obtain ⟨run, rfl⟩ := exists_map_char fits.2
    rw [mergeSegment, filterMap_charClass?_map_char]
    refine List.forall_mem_map.mpr fun cls member => ?_
    refine formed_char.mpr (CharRun.proper_merge (fun c hc => ?_) cls member)
    exact formed_char.mp (formed _ (List.mem_map_of_mem hc))
  | other n => exact formed

theorem mergeSegment_ne_nil [CharTest π] {s : Segment (Matcher π)}
    (fits : s.Fits isSingleChar) (formed : ∀ m ∈ s.members, m.Formed known) :
    mergeSegment s ≠ [] := by
  cases s with
  | run members =>
    obtain ⟨some, chars⟩ := fits
    obtain ⟨run, rfl⟩ := exists_map_char chars
    rw [mergeSegment, filterMap_charClass?_map_char, ne_eq, List.map_eq_nil_iff]
    refine CharRun.merge_ne_nil (fun h => some (by rw [h]; rfl)) fun c hc => ?_
    exact formed_char.mp (formed _ (List.mem_map_of_mem hc))
  | other n => exact List.cons_ne_nil n []

/-- A choice of formed children is reduced to alternatives that are formed. -/
theorem formed_reduceChoice {ms : List (Matcher π)} (formed : ∀ m ∈ ms, m.Formed known) :
    ∀ m ∈ reduceChoice ms, m.Formed known := by
  intro m hm
  obtain ⟨s, hs, inside⟩ := List.mem_flatMap.mp hm
  have members := fun n => @formed_of_mem_members _ _ ms formed s hs n
  exact formed_mergeSegment (fits_segments _ _ s hs) members m inside

theorem flatMap_alternatives_ne_nil {ms : List (Matcher π)} (some : ms ≠ [])
    (formed : ∀ m ∈ ms, m.Formed known) : ms.flatMap alternatives ≠ [] := by
  obtain ⟨m, hm⟩ := List.exists_mem_of_ne_nil ms some
  have alternative : m.alternatives ≠ [] := by
    unfold alternatives
    split
    · exact (formed_choice.mp (formed _ hm)).1
    · exact List.cons_ne_nil m []
  obtain ⟨n, hn⟩ := List.exists_mem_of_ne_nil _ alternative
  exact List.ne_nil_of_mem (List.mem_flatMap.mpr ⟨m, hm, hn⟩)

/-- A choice that has alternatives still has one when it is reduced. -/
theorem reduceChoice_ne_nil [CharTest π] {ms : List (Matcher π)} (some : ms ≠ [])
    (formed : ∀ m ∈ ms, m.Formed known) : reduceChoice ms ≠ [] := by
  have whole := flatMap_members_segments isSingleChar (ms.flatMap alternatives)
  obtain ⟨n, hn⟩ := List.exists_mem_of_ne_nil _ (flatMap_alternatives_ne_nil some formed)
  rw [← whole] at hn
  obtain ⟨s, hs, _⟩ := List.mem_flatMap.mp hn
  have members := fun n => @formed_of_mem_members _ _ ms formed s hs n
  obtain ⟨x, hx⟩ :=
    List.exists_mem_of_ne_nil _ (mergeSegment_ne_nil (fits_segments _ _ s hs) members)
  exact List.ne_nil_of_mem (List.mem_flatMap.mpr ⟨s, hs, hx⟩)

theorem Formed.optimize [CharTest π] {m : Matcher π} (h : m.Formed known) :
    m.optimize.Formed known := by
  induction m with
  | choice ms ih =>
    obtain ⟨some, formed⟩ := formed_choice.mp h
    have formed : ∀ n ∈ optimizeAll ms, n.Formed known := by
      rw [optimizeAll_eq_map]
      exact List.forall_mem_map.mpr fun n hn => ih n hn (formed n hn)
    have some : reduceChoice (optimizeAll ms) ≠ [] := by
      refine reduceChoice_ne_nil ?_ formed
      rwa [optimizeAll_eq_map, ne_eq, List.map_eq_nil_iff]
    have reduced := formed_reduceChoice formed
    unfold Matcher.optimize choiceOf
    split
    · next only found => exact reduced only (found ▸ List.mem_singleton_self only)
    · exact formed_choice.mpr ⟨some, reduced⟩
  | sequence ms ih =>
    rw [Matcher.optimize, optimizeAll_eq_map]
    refine formed_iff.mpr ⟨?_, List.forall_mem_map.mpr fun n hn => ih n hn (h.child hn)⟩
    exact fun none => h.node (List.map_eq_nil_iff.mp none)
  | optional m ih =>
    have inner := ih (h.child List.mem_cons_self)
    unfold Matcher.optimize optionalOf
    split
    · next found => exact found ▸ inner
    · next single =>
      exact formed_iff.mpr
        ⟨isOptional_eq_false_iff.mpr single, List.forall_mem_singleton.mpr inner⟩
  | repetition m min max ih =>
    refine formed_iff.mpr ⟨?_, List.forall_mem_singleton.mpr (ih (h.child List.mem_cons_self))⟩
    have node := h.node
    cases max with
    | some max => exact node
    | none => exact (isNullable_optimize known m).trans node
  | absent m ih | rule name m ih | ignore m ih | join m ih | mark m ih | save name m ih =>
    exact formed_iff.mpr ⟨h.node, List.forall_mem_singleton.mpr (ih (h.child List.mem_cons_self))⟩
  | char cls | text t | endOfInput | ref name | load name => exact h

end Matcher

end Peg
