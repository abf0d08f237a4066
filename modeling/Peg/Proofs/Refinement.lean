import Peg.Proofs.Denotation

/-!
# Matching follows the meanings

The steps of `Engine.eval` move a reader, make and take back save points, change the
saved texts and count the rules open. Here every way of combining steps is shown to follow
the way of combining meanings that has its name, as long as the reader stands between two
characters. The result for whole matchers is `Engine.means_step`.

Steps follow meanings in two senses. A step that *means* something (`Step.Means`)
leaves the state as it was when it fails. The steps inside a sequence or a repetition
only *drift* (`Step.Drifts`): a failure may leave the reader further on, with the text
and the save points untouched. `Step.guarded` turns the second into the first.
-/

namespace Peg

/-! ## States and points -/

/-- The reader has moved at most: its text and its save points are the same. -/
structure Reader.Kept (before after : Reader) : Prop where
  text : after.text = before.text
  saves : after.saves = before.saves
  valid : after.Valid

/-- The point at which the reader stands. -/
def Reader.point (r : Reader) : Point := ⟨r.location, r.remaining⟩

theorem Reader.atEnd_iff {r : Reader} (valid : r.Valid) : r.atEnd = true ↔ r.remaining = [] := by
  obtain ⟨front, whole, size⟩ := valid.split
  have total : r.size = r.position + r.remaining.byteSize := by
    rw [Reader.size, whole, Text.byteSize_append, size]
  rw [atEnd, decide_eq_true_iff, total]
  cases r.remaining with
  | nil => simp
  | cons c rest =>
    have some := c.utf8Size_pos
    simp only [Text.byteSize_cons, reduceCtorEq, iff_false]
    omega

namespace State

def point (s : State) : Point := s.reader.point

/-- The state with the reader moved to a point and other texts saved. -/
def goTo (s : State) (p : Point) (saved : Saved) : State :=
  { s with reader := { s.reader with location := p.location }, saved }

/-- The two states have one text, the same save points, and as many rules open. -/
def SameStack (s t : State) : Prop :=
  t.reader.text = s.reader.text ∧ t.reader.saves = s.reader.saves ∧ t.depth = s.depth

/-- The reader stands between two characters, and `depth` rules are open. -/
structure Ready (depth : Nat) (s : State) : Prop where
  valid : s.reader.Valid
  depth : s.depth = depth

variable {s : State} {p : Point} {t : Text}

theorem reader_goTo (between : s.point.Over t p) (saved : Saved) :
    (s.goTo p saved).reader = s.reader.movedOver t := by
  rw [goTo, Reader.movedOver, between.2]
  rfl

theorem valid_goTo (valid : s.reader.Valid) (between : s.point.Over t p) (saved : Saved) :
    (s.goTo p saved).reader.Valid :=
  reader_goTo between saved ▸ Reader.valid_movedOver valid between.1

theorem Ready.goTo {depth : Nat} (ready : s.Ready depth) (between : s.point.Over t p)
    (saved : Saved) : (s.goTo p saved).Ready depth :=
  ⟨valid_goTo ready.valid between saved, ready.depth⟩

theorem point_goTo (valid : s.reader.Valid) (between : s.point.Over t p) (saved : Saved) :
    (s.goTo p saved).point = p := by
  have ahead : (s.goTo p saved).reader.remaining = p.ahead := by
    rw [reader_goTo between saved]
    exact Reader.remaining_movedOver valid between.1
  rw [point, Reader.point, ahead]
  rfl

/-- The reader has moved exactly if the text ahead has changed. -/
theorem position_goTo_eq_iff (between : s.point.Over t p) (saved : Saved) :
    (s.goTo p saved).reader.position = s.reader.position ↔ p.ahead = s.point.ahead := by
  have moved : (s.goTo p saved).reader.position = s.reader.position + t.byteSize := by
    rw [reader_goTo between saved]
    exact Location.advanceOver_offset _ _
  constructor
  · intro still
    cases t with
    | nil => exact congrArg Point.ahead between.eq_of_nil
    | cons c t =>
      have some := c.utf8Size_pos
      rw [Text.byteSize_cons] at moved
      omega
  · intro same
    rw [moved, between.nil_of_ahead_eq same]
    rfl

end State

/-- After an attempt that has kept the text and the save points, a jump restores the
state from which the attempt was made. -/
theorem Report.backTo_eq {τ : Type} {r : Report τ} {origin : State}
    (valid : origin.reader.Valid) (same : origin.SameStack r.state) :
    r.backTo origin = { r with state := origin } := by
  have reader : (⟨r.state.reader.text, origin.reader.location, r.state.reader.saves⟩ : Reader) =
      origin.reader := by
    rw [same.1, same.2.1]
  have state : (⟨⟨r.state.reader.text, origin.reader.location, r.state.reader.saves⟩,
      origin.saved, r.state.depth⟩ : State) = origin := by
    rw [reader, same.2.2]
  rw [Report.backTo, Reader.rewind_location valid same.1]
  exact congrArg (fun state => { r with state }) state

theorem Report.andThen_congr {τ : Type} {r : Report τ} {next next' : Step τ}
    (same : next r.state = next' r.state) : r.andThen next = r.andThen next' := by
  unfold Report.andThen
  split
  · rfl
  · rw [same]

theorem Step.guarded_congr {τ : Type} {step step' : Step τ} {s : State}
    (same : step { s with reader := s.reader.save } = step' { s with reader := s.reader.save }) :
    guarded step s = guarded step' s := by
  unfold guarded
  rw [same]

/-! ## The furthest failure -/

namespace MatchError

theorem foldl_later (fs : List Failure) (a b : Location) :
    fs.foldl (fun best f => best.later f.location) (a.later b) =
      a.later (fs.foldl (fun best f => best.later f.location) b) := by
  induction fs generalizing b with
  | nil => rfl
  | cons f fs ih => rw [List.foldl_cons, List.foldl_cons, Location.later_assoc, ih]

theorem furthest_causedBy (e cause : MatchError) :
    (e.causedBy cause).furthest = e.top.location.later cause.furthest :=
  foldl_later cause.causes e.top.location cause.top.location

end MatchError

/-- How far the attempts of a choice have got, when `best` is the best of them. -/
def bestReach (start : Location) : Option MatchError → Location
  | none => start
  | some e => start.later e.furthest

theorem bestReach_further (start : Location) (best : Option MatchError) (e : MatchError) :
    bestReach start (some (Step.further best e)) = (bestReach start best).later e.furthest := by
  cases best with
  | none => rfl
  | some b =>
    have furthest : (Step.further (some b) e).furthest = b.furthest.later e.furthest := by
      show (if e.reach ≤ b.reach then b else e).furthest =
        if b.reach < e.reach then e.furthest else b.furthest
      by_cases le : e.reach ≤ b.reach
      · rw [if_pos le, if_neg (Nat.not_lt.mpr le)]
      · rw [if_neg le, if_pos (Nat.not_le.mp le)]
    rw [bestReach, furthest, bestReach, Location.later_assoc]

/-! ## Following a meaning -/

/-- The report of a step from `s` tells what a reading says; after a failure the
state is one of those that `left` allows. -/
inductive Follows {τ : Type} (left : State → Prop) (s : State) : Report τ → Reading τ → Prop
  | matched {output : Output τ} {last : Point} {saved : Saved} {log : Log} {t : Text} :
      s.point.Over t last →
      Follows left s ⟨.ok output, s.goTo last saved, log⟩ ⟨.matched output last saved, log.marks⟩
  | failed {error : MatchError} {state : State} {log : Log} :
      error.isFatal = false → left state →
      Follows left s ⟨.error error, state, log⟩ ⟨.failed error.furthest, log.marks⟩
  | aborted {failure : Failure} {state : State} {log : Log} :
      failure.kind.isFatal = true → left state →
      Follows left s ⟨.error ⟨failure, []⟩, state, log⟩ ⟨.aborted failure, log.marks⟩

namespace Follows

variable {τ : Type} {left : State → Prop} {s : State} {r : Report τ} {v : Reading τ}

theorem mono {left' : State → Prop} (h : Follows left s r v) (weaker : ∀ x, left x → left' x) :
    Follows left' s r v := by
  cases h with
  | matched between => exact .matched between
  | failed mild hx => exact .failed mild (weaker _ hx)
  | aborted fatal hx => exact .aborted fatal (weaker _ hx)

theorem after {log : Log} (h : Follows left s r v) :
    Follows left s (r.after log) (v.after log.marks) := by
  cases h with
  | matched between => exact .matched between
  | failed mild hx => exact .failed mild hx
  | aborted fatal hx => exact .aborted fatal hx

/-- Of what a step notes only the marks matter. -/
theorem withLog {log : Log} (h : Follows left s r v) (same : log.marks = r.log.marks) :
    Follows left s { r with log } v := by
  cases h with
  | matched between => exact same ▸ .matched between
  | failed mild hx => exact same ▸ .failed mild hx
  | aborted fatal hx => exact same ▸ .aborted fatal hx

theorem mapOutput (f : Output τ → Output τ) (h : Follows left s r v) :
    Follows left s (r.mapOutput f) (v.mapOutput f) := by
  cases h with
  | matched between =>
    rw [Reading.mapOutput_matched]
    exact .matched between
  | failed mild hx =>
    rw [Reading.mapOutput_failed]
    exact .failed mild hx
  | aborted fatal hx => exact .aborted fatal hx

/-- Going on after a report, as from the state it leaves. -/
theorem andThen {next : Step τ} {f : Meaning τ} (valid : s.reader.Valid)
    (h : Follows s.SameStack s r v)
    (hn : ∀ last saved t, s.point.Over t last →
      Follows s.SameStack (s.goTo last saved) (next (s.goTo last saved)) (f last saved)) :
    Follows s.SameStack s (r.andThen next)
      (v.onMatch fun output last saved => (f last saved).mapOutput output.append) := by
  cases h with
  | @matched output last saved log t between =>
    have rest := hn last saved t between
    unfold Report.andThen
    rw [Reading.onMatch_matched]
    generalize next (s.goTo last saved) = r' at rest ⊢
    generalize f last saved = v' at rest ⊢
    cases rest with
    | matched between' =>
      rw [State.point_goTo valid between] at between'
      rw [Reading.mapOutput_matched]
      exact .matched (between.trans between')
    | failed mild hx =>
      rw [Reading.mapOutput_failed]
      exact .failed mild hx
    | aborted fatal hx => exact .aborted fatal hx
  | failed mild hx =>
    rw [Reading.onMatch_failed]
    exact .failed mild hx
  | aborted fatal hx => exact .aborted fatal hx

end Follows

namespace Step

variable {τ : Type} {depth : Nat}

/-- With `depth` rules open the step does what `f` says, and changes nothing when it
fails. -/
def Means (step : Step τ) (depth : Nat) (f : Meaning τ) : Prop :=
  ∀ s : State, s.Ready depth → Follows (· = s) s (step s) (f s.point s.saved)

/-- With `depth` rules open the step does what `f` says, and keeps the text, the save points
and the number of rules open. -/
def Drifts (step : Step τ) (depth : Nat) (f : Meaning τ) : Prop :=
  ∀ s : State, s.Ready depth → Follows s.SameStack s (step s) (f s.point s.saved)

theorem Means.drifts {step : Step τ} {f : Meaning τ} (h : step.Means depth f) :
    step.Drifts depth f := fun s ready =>
  (h s ready).mono fun _ same => same ▸ ⟨rfl, rfl, rfl⟩

/-- The step from where a match has led. -/
theorem Drifts.follows_goTo {step : Step τ} {f : Meaning τ} (h : step.Drifts depth f) {s : State}
    (ready : s.Ready depth) {t : Text} {last : Point} (between : s.point.Over t last)
    (saved : Saved) :
    Follows s.SameStack (s.goTo last saved) (step (s.goTo last saved)) (f last saved) := by
  have next := h (s.goTo last saved) (ready.goTo between saved)
  rw [State.point_goTo ready.valid between saved] at next
  exact next

/-! ## Single steps -/

theorem follows_fail {left : State → Prop} {s : State} {e : MatchError} {reach : Location}
    (mild : e.isFatal = false) (furthest : e.furthest = reach) (kept : left s) :
    Follows left s (fail e s : Report τ) (.just (.failed reach)) := by
  subst furthest
  exact @Follows.failed _ _ s e s .empty mild kept

theorem follows_failHere {kind : FailureKind} (mild : kind.isFatal = false) (s : State) :
    Follows (· = s) s (failHere kind s : Report τ) (.just (.failed s.point.location)) :=
  follows_fail (e := .of kind s.reader.location) mild rfl rfl

theorem means_abort {kind : FailureKind} (fatal : kind.isFatal = true) :
    (failHere kind : Step τ).Means depth (.abort kind) := fun s _ =>
  @Follows.aborted _ _ s ⟨kind, s.reader.location⟩ s .empty fatal rfl

theorem means_char (accepts : Char → Bool) (expected : String) :
    (char accepts expected : Step τ).Means depth (.char accepts) := by
  intro s ready
  unfold char Meaning.char Reader.peek
  have ahead : s.point.ahead = s.reader.remaining := rfl
  rw [ahead]
  cases next : s.reader.remaining with
  | nil => exact follows_failHere rfl s
  | cons c rest =>
    simp only [List.getElem?_cons_zero]
    split
    · have one : s.reader.remaining.take 1 = [c] := by rw [next]; rfl
      have between := Point.over_past (p := s.point) (t := [c]) ⟨rest, next.symm⟩
      rw [Reader.advance_eq_movedOver, one, ← State.reader_goTo between s.saved]
      exact .matched between
    · exact follows_failHere rfl s

theorem means_text (t : Text) {otherwise : FailureKind} (mild : otherwise.isFatal = false) :
    (text t otherwise : Step τ).Means depth (.text t) := by
  intro s ready
  unfold text Meaning.text
  have isNext : s.reader.isNext t = true ↔ t <+: s.point.ahead := List.isPrefixOf_iff_prefix
  by_cases next : t <+: s.point.ahead
  · rw [if_pos (isNext.mpr next), if_pos next]
    obtain ⟨rest, whole⟩ := next
    have between := Point.over_past (p := s.point) ⟨rest, whole⟩
    rw [Reader.advanceBytes_eq_movedOver ready.valid whole.symm,
      ← State.reader_goTo between s.saved]
    exact .matched between
  · rw [if_neg (fun h => next (isNext.mp h)), if_neg next]
    exact follows_failHere mild s

theorem means_endOfInput : (endOfInput : Step τ).Means depth .endOfInput := by
  intro s ready
  unfold endOfInput Meaning.endOfInput
  by_cases last : s.point.ahead = []
  · rw [if_pos ((Reader.atEnd_iff ready.valid).mpr last), if_pos last]
    exact .matched (.refl s.point)
  · rw [if_neg (fun h => last ((Reader.atEnd_iff ready.valid).mp h)), if_neg last]
    exact follows_failHere rfl s

theorem means_load (name : String) : (load name : Step τ).Means depth (.load name) := by
  intro s ready
  unfold load Meaning.load
  cases s.saved.lookup name with
  | some t =>
    have mild : (FailureKind.saveMismatch name t).isFatal = false := rfl
    exact means_text t mild s ready
  | none =>
    have mild : (FailureKind.unknownSave name).isFatal = false := rfl
    exact follows_failHere mild s

/-! ## Combined steps -/

/-- Going back to a save point made in `s` restores `s`. -/
theorem settle_load {s : State} (r : Report τ)
    (same : State.SameStack { s with reader := s.reader.save } r.state) :
    r.settle s.saved r.state.reader.load = { r with state := s } := by
  obtain ⟨text, saves, depth⟩ := same
  have loaded : r.state.reader.load = (.ok s.reader.location, s.reader) := by
    rw [Reader.load, saves, text]
    rfl
  have state : (⟨s.reader, s.saved, r.state.depth⟩ : State) = s := by rw [depth]
  rw [loaded]
  exact congrArg (fun state => { r with state }) state

/-- A save point made before a step and taken back after it undoes a failure. -/
theorem Drifts.guarded {step : Step τ} {f : Meaning τ} (h : step.Drifts depth f) :
    (guarded step).Means depth f := by
  intro s ready
  have inner : Follows _ _ _ (f s.point s.saved) :=
    h { s with reader := s.reader.save } ⟨ready.valid, ready.depth⟩
  unfold Step.guarded
  generalize step { s with reader := s.reader.save } = r at inner ⊢
  generalize f s.point s.saved = v at inner ⊢
  cases inner with
  | matched between => exact .matched between
  -- A failure has kept the save points, so the latest is the one made before the step.
  | @failed error state log mild same =>
    simp only [settle_load ⟨.error error, state, log⟩ same]
    exact .failed mild rfl
  | @aborted failure state log fatal same =>
    simp only [settle_load ⟨.error ⟨failure, []⟩, state, log⟩ same]
    exact .aborted fatal rfl

theorem Means.optional {step : Step τ} {f : Meaning τ} (h : step.Means depth f) :
    (optional step).Means depth f.optional := by
  intro s ready
  have inner := h.drifts.guarded s ready
  unfold Step.optional absorb Meaning.optional
  generalize Step.guarded step s = r at inner ⊢
  generalize f s.point s.saved = v at inner ⊢
  cases inner with
  | matched between =>
    rw [Reading.onFail_matched]
    exact .matched between
  | @failed error state log mild same =>
    subst same
    simp only [mild, Reading.onFail_failed, Reading.after_just, Bool.false_eq_true, if_false]
    exact .matched (.refl state.point)
  | @aborted failure state log fatal same =>
    have fatal' : (⟨failure, []⟩ : MatchError).isFatal = true := fatal
    simp only [fatal', Reading.onFail_aborted, if_true]
    exact .aborted fatal same

/-- After an attempt the state is as before, and what the attempt did not change of
the report stays. -/
theorem backTo_eq_of_follows {s : State} (valid : s.reader.Valid) {r : Report τ} {v : Reading τ}
    (h : Follows (· = s) s r v) : r.backTo s = { r with state := s } := by
  refine Report.backTo_eq valid ?_
  cases h with
  | matched between => exact ⟨rfl, rfl, rfl⟩
  | failed mild same | aborted fatal same => exact same ▸ ⟨rfl, rfl, rfl⟩

theorem Means.absent {step : Step τ} {f : Meaning τ} (h : step.Means depth f) :
    (absent step).Means depth f.absent := by
  intro s ready
  have inner := h s ready
  have back := backTo_eq_of_follows ready.valid inner
  unfold Step.absent Meaning.absent
  generalize step s = r at inner back ⊢
  generalize f s.point s.saved = v at inner ⊢
  cases inner with
  | @matched output last saved log t between =>
    rw [back, Reading.resume_matched, Reading.after_just]
    exact @Follows.failed _ _ s (.of .unexpected s.reader.location) s log rfl rfl
  | @failed error state log mild same =>
    rw [back, Reading.resume_failed, Reading.after_just]
    simp only [mild, Bool.false_eq_true, if_false]
    exact .matched (.refl s.point)
  | @aborted failure state log fatal same =>
    have fatal' : (⟨failure, []⟩ : MatchError).isFatal = true := fatal
    rw [back, Reading.resume_aborted]
    simp only [fatal', if_true]
    exact .aborted fatal rfl

theorem Means.mapOutput {step : Step τ} {f : Meaning τ} (h : step.Means depth f)
    (g : Output τ → Output τ) :
    Means (fun s => (step s).mapOutput g) depth (f.mapOutput g) := fun s ready =>
  (h s ready).mapOutput g

theorem Means.mark {step : Step τ} {f : Meaning τ} (h : step.Means depth f) :
    (mark step).Means depth f.mark := by
  intro s ready
  have inner := h s ready
  unfold Step.mark Meaning.mark
  generalize step s = r at inner ⊢
  generalize f s.point s.saved = v at inner ⊢
  cases inner with
  | matched between => exact .matched between
  | failed mild same =>
    rw [Reading.onMatch_failed]
    exact .failed mild same
  | aborted fatal same => exact .aborted fatal same

theorem Means.save {step : Step τ} {f : Meaning τ} (h : step.Means depth f) (name : String) :
    (save name step).Means depth (f.save name) := by
  intro s ready
  have inner := h s ready
  unfold Step.save Meaning.save
  generalize step s = r at inner ⊢
  generalize f s.point s.saved = v at inner ⊢
  cases inner with
  | matched between =>
    rw [Reading.onMatch_matched, Reading.after_just]
    exact .matched between
  | failed mild same =>
    rw [Reading.onMatch_failed]
    exact .failed mild same
  | aborted fatal same => exact .aborted fatal same

/-- A rule that is opened for a step is closed again. -/
theorem Means.opened {step : Step τ} {f : Meaning τ} (h : step.Means (depth + 1) f) :
    (opened step).Means depth f := by
  intro s ready
  have inner : Follows _ _ _ (f s.point s.saved) :=
    h { s with depth := s.depth + 1 } ⟨ready.valid, congrArg Nat.succ ready.depth⟩
  unfold Step.opened
  generalize step { s with depth := s.depth + 1 } = r at inner ⊢
  generalize f s.point s.saved = v at inner ⊢
  cases inner with
  | matched between => exact .matched between
  | failed mild same => exact .failed mild (same ▸ rfl)
  | aborted fatal same => exact .aborted fatal (same ▸ rfl)

/-! ## Repetitions -/

theorem drifts_enough (start : Location) (min count : Nat) (cause : Option MatchError) :
    (enough start min count cause : Step τ).Drifts depth
      (.enough (bestReach start cause) (min - count)) := by
  intro s _
  unfold enough Meaning.enough
  by_cases few : count < min
  · rw [if_pos few, if_neg (Nat.sub_ne_zero_of_lt few)]
    cases cause with
    | none => exact follows_fail rfl rfl ⟨rfl, rfl, rfl⟩
    | some e => exact follows_fail rfl (MatchError.furthest_causedBy _ e) ⟨rfl, rfl, rfl⟩
  · rw [if_neg few, if_pos (Nat.sub_eq_zero_of_le (Nat.not_lt.mp few))]
    exact .matched (.refl s.point)

theorem any_le_iff (max : Option Nat) (count : Nat) :
    max.any (· ≤ count) = true ↔ max.map (· - count) = some 0 := by
  cases max with
  | none => simp
  | some n => simp [Nat.sub_eq_zero_iff_le]

/-- The number of matches so far counts down what is still wanted and allowed. -/
theorem drifts_repeatFrom {step : Step τ} {f : Meaning τ} (h : step.Means depth f)
    (start : Location) (min : Nat) (max : Option Nat) (bound : Nat) : ∀ count,
    (repeatFrom step start min max bound count).Drifts depth
      (.iterate f start bound (min - count) (max.map (· - count))) := by
  induction bound with
  | zero => exact fun count => drifts_enough start min count none
  | succ bound ih =>
    intro count s ready
    -- With one match more counted, one less is still wanted and one less still allowed.
    have fewer : (max.map (· - count)).map (· - 1) = max.map (· - (count + 1)) := by
      rw [Option.map_map]
      rfl
    unfold repeatFrom Meaning.iterate
    by_cases full : max.map (· - count) = some 0
    · rw [if_pos ((any_le_iff max count).mpr full), if_pos full]
      exact drifts_enough start min count none s ready
    rw [if_neg (fun h => full ((any_le_iff max count).mp h)), if_neg full]
    have inner := h s ready
    have back := backTo_eq_of_follows ready.valid inner
    generalize step s = r at inner back ⊢
    generalize f s.point s.saved = v at inner ⊢
    cases inner with
    | @matched output last saved log t between =>
      have still := State.position_goTo_eq_iff between saved
      rw [Reading.resume_matched]
      by_cases same : last.ahead = s.point.ahead
      · rw [if_pos same, Reading.after_just]
        simp only [if_pos (still.mpr same)]
        exact .matched between
      · rw [if_neg same]
        simp only [if_neg (fun h => same (still.mp h))]
        rw [fewer, Nat.sub_sub]
        exact Follows.andThen ready.valid (.matched between) fun last saved t between =>
          (ih (count + 1)).follows_goTo ready between saved
    | @failed error state log mild same =>
      rw [Reading.resume_failed]
      simp only [mild, back, Bool.false_eq_true, if_false]
      exact (drifts_enough start min count (some error) s ready).after
    | @aborted failure state log fatal same =>
      have fatal' : (⟨failure, []⟩ : MatchError).isFatal = true := fatal
      rw [Reading.resume_aborted]
      simp only [fatal', if_true]
      exact .aborted fatal (same ▸ ⟨rfl, rfl, rfl⟩)

theorem Means.repetition {step : Step τ} {f : Meaning τ} (h : step.Means depth f) (min : Nat)
    (max : Option Nat) : (repetition step min max).Means depth (f.repetition min max) := by
  intro s ready
  have loop := drifts_repeatFrom h s.reader.location min max (s.reader.remaining.length + 1) 0
  have none : max.map (· - 0) = max := by simp
  rw [none, Nat.sub_zero] at loop
  exact loop.guarded s ready

/-! ## Choices -/

theorem follows_exhausted (s : State) (best : Option MatchError) :
    Follows (· = s) s (exhausted s best s : Report τ)
      (.just (.failed (bestReach s.reader.location best))) := by
  cases best with
  | none => exact follows_fail rfl rfl rfl
  | some e => exact follows_fail rfl (MatchError.furthest_causedBy _ e) rfl

/-- An alternative that fails gives way to the next one, which starts from the same
state. -/
theorem Means.orElse {step : Step τ} {f : Meaning τ} (h : step.Means depth f) {s : State}
    (ready : s.Ready depth) (best : Option MatchError) {next : Option MatchError → Step τ}
    {g : Location → Meaning τ}
    (hn : ∀ best, Follows (· = s) s (next best s)
      (g (bestReach s.reader.location best) s.point s.saved)) :
    Follows (· = s) s (orElse s best step next s)
      ((f s.point s.saved).onFail fun further =>
        g ((bestReach s.reader.location best).later further) s.point s.saved) := by
  have inner := h s ready
  have back := backTo_eq_of_follows ready.valid inner
  unfold Step.orElse
  generalize step s = r at inner back ⊢
  generalize f s.point s.saved = v at inner ⊢
  cases inner with
  | matched between =>
    rw [Reading.onFail_matched]
    exact .matched between
  | @failed error state log mild same =>
    rw [Reading.onFail_failed, ← bestReach_further]
    simp only [back, mild, Bool.false_eq_true, if_false]
    exact (hn _).after
  | @aborted failure state log fatal same =>
    have fatal' : (⟨failure, []⟩ : MatchError).isFatal = true := fatal
    simp only [back, fatal', if_true]
    exact .aborted fatal rfl

end Step

/-! ## Whole matchers -/

namespace Engine

variable {π τ : Type} [CharTest π] {depth : Nat} {enter : String → Matcher π → Step τ}
  {call : String → Matcher π → Meaning τ}

theorem drifts_evalSequence (e : Engine π τ) {ms : List (Matcher π)}
    (h : ∀ m ∈ ms, (e.eval enter m).Means depth (e.denote call m)) :
    (e.evalSequence enter ms).Drifts depth (e.denoteSequence call ms) := by
  induction ms with
  | nil => exact fun s _ => .matched (.refl s.point)
  | cons m ms ih =>
    intro s ready
    have rest := ih fun m hm => h m (List.mem_cons_of_mem _ hm)
    exact ((h m List.mem_cons_self).drifts s ready).andThen ready.valid fun last saved t between =>
      rest.follows_goTo ready between saved

theorem follows_evalChoice (e : Engine π τ) {ms : List (Matcher π)}
    (h : ∀ m ∈ ms, (e.eval enter m).Means depth (e.denote call m)) {s : State}
    (ready : s.Ready depth) (best : Option MatchError) :
    Follows (· = s) s (e.evalChoice enter s best ms s)
      (e.denoteChoice call ms (bestReach s.reader.location best) s.point s.saved) := by
  induction ms generalizing best with
  | nil => exact Step.follows_exhausted s best
  | cons m ms ih =>
    exact (h m List.mem_cons_self).orElse ready best
      fun best => ih (fun m hm => h m (List.mem_cons_of_mem _ hm)) best

/-- The step of a matcher does what the matcher means, if the steps of rules do. -/
theorem means_eval_of_enter (e : Engine π τ)
    (h : ∀ name m, (enter name m).Means depth (call name m)) (m : Matcher π) :
    (e.eval enter m).Means depth (e.denote call m) := by
  induction m with
  | char cls => exact Step.means_char _ _
  | text t => exact Step.means_text t rfl
  | endOfInput => exact Step.means_endOfInput
  | sequence ms ih => exact (e.drifts_evalSequence ih).guarded
  | choice ms ih => exact fun s ready => e.follows_evalChoice ih ready none
  | repetition m min max ih => exact ih.repetition min max
  | optional m ih => exact ih.optional
  | absent m ih => exact ih.absent
  | ref name =>
    unfold eval denote
    cases e.table.rule? name with
    | some rule => exact h rule.name rule.definition
    | none => exact Step.means_abort rfl
  | rule name m _ => exact h name m
  | ignore m ih | join m ih => exact ih.mapOutput _
  | mark m ih => exact ih.mark
  | save name m ih => exact ih.save name
  | load name => exact Step.means_load name

omit [CharTest π] in
/-- Tracing a rule changes nothing but the trace. -/
theorem means_traced (e : Engine π τ) (name : String) {step : Step τ} {f : Meaning τ}
    (h : step.Means depth f) : (e.traced name step).Means depth f := by
  intro s ready
  unfold traced
  split
  · refine (h s ready).withLog ?_
    exact List.append_nil _
  · exact h s ready

theorem means_enter (e : Engine π τ) {levels : Nat} (size : e.settings.maxDepth - depth = levels)
    (name : String) (m : Matcher π) :
    (e.enter levels name m).Means depth (e.applyRule levels name m) := by
  induction levels generalizing depth name m with
  | zero => exact Step.means_abort rfl
  | succ levels ih =>
    intro s ready
    have under : ¬ e.settings.maxDepth ≤ s.depth := by
      rw [ready.depth]
      omega
    -- In the body one rule more is open and one level less is left.
    have body := e.means_eval_of_enter (fun name m => @ih (depth + 1) (by omega) name m) m
    unfold enter
    rw [if_neg under]
    exact (e.means_traced name body.opened).mapOutput (e.shape name) s ready

/-- With `depth` rules open a matcher does what it means when only the others that are
allowed may be opened. -/
theorem means_step (e : Engine π τ) (depth : Nat) (m : Matcher π) :
    (e.step m).Means depth (e.denote (e.applyRule (e.settings.maxDepth - depth)) m) := by
  intro s ready
  unfold step
  rw [ready.depth]
  exact e.means_eval_of_enter (e.means_enter rfl) m s ready

theorem means_step_zero (e : Engine π τ) (m : Matcher π) :
    (e.step m).Means 0 (e.denote (e.applyRule e.settings.maxDepth) m) := e.means_step 0 m

/-- Whatever a step comes to, the text and the save points are as before and the reader
stands between two characters. -/
theorem kept_step (e : Engine π τ) (m : Matcher π) {s : State} (valid : s.reader.Valid) :
    s.reader.Kept (e.step m s).state.reader := by
  have follows := e.means_step s.depth m s ⟨valid, rfl⟩
  generalize e.step m s = r at follows ⊢
  generalize e.denote _ m s.point s.saved = v at follows
  cases follows with
  | matched between => exact ⟨rfl, rfl, State.valid_goTo valid between _⟩
  | failed mild same | aborted fatal same =>
    cases same
    exact ⟨rfl, rfl, valid⟩

end Engine

end Peg
