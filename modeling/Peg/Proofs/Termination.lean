import Peg.Proofs.StillRepetitions

/-!
# Matching ends by itself

`Engine.eval` ends because it counts down: `Engine.enter` the rules that may still be opened,
`Step.repeatFrom` the rounds that a loop may still make. Neither number is needed. `Evaluates`
are the runs of a matcher without them, in which only the settings limit the rules that are
open, and a loop goes on as long as its attempts match and move the reader. Each derivation is
a run that ends.

From a reader between two characters there is exactly one such run, and it comes to what
`Engine.step` comes to (`Engine.evaluates_exact`). That is so beside any rules, also those that
the checks refuse. It takes an induction on the rules that may still be opened, one within it on
the matcher, and within that, in a loop, one on the text ahead.
-/

namespace Peg

deriving instance DecidableEq for Report

/-! ## Rounds of a loop, alternatives of a choice -/

/-- Where a success need not be repeated, the end of the loop adds nothing to it. -/
theorem Report.andThen_enough {τ : Type} {r : Report τ} {output : Output τ}
    (succeeded : r.outcome = .ok output) (start : Location) {min count : Nat} (many : min ≤ count)
    (cause : Option MatchError) : r.andThen (Step.enough start min count cause) = r := by
  obtain ⟨outcome, state, log⟩ := r
  cases succeeded
  simp [andThen, Step.enough, Nat.not_lt.mpr many, Step.succeed, after, Log.append, Log.empty,
    Output.append, Output.empty]

namespace Step

variable {τ : Type} {step : Step τ} {s : State} {r : Report τ} {error back : MatchError}
  {start : Location} {min count bound : Nat} {max : Option Nat}

/-- A round of a loop that matches is the last one if it leaves the reader where it was. -/
theorem repeatFrom_of_ok {output : Output τ} (more : max.any (· ≤ count) = false)
    (round : step s = r) (succeeded : r.outcome = .ok output) :
    repeatFrom step start min max (bound + 1) count s =
      if r.state.reader.position = s.reader.position then r
      else r.andThen (repeatFrom step start min max bound (count + 1)) := by
  subst round
  rw [repeatFrom.eq_def]
  simp only [more, succeeded, Bool.false_eq_true, if_false]

theorem repeatFrom_of_fatal (more : max.any (· ≤ count) = false) (round : step s = r)
    (failed : r.outcome = .error error) (fatal : error.isFatal = true) :
    repeatFrom step start min max (bound + 1) count s = r := by
  subst round
  rw [repeatFrom.eq_def]
  simp only [more, failed, fatal, Bool.false_eq_true, if_false, if_true]

/-- A round of a loop that fails is taken back, and the loop is over. -/
theorem repeatFrom_of_error (more : max.any (· ≤ count) = false) (round : step s = r)
    (failed : r.outcome = .error error) (mild : error.isFatal = false)
    (behind : (r.backTo s).outcome = .error back) :
    repeatFrom step start min max (bound + 1) count s =
      if back.isFatal then r.backTo s
      else (enough start min count (some back) (r.backTo s).state).after (r.backTo s).log := by
  subst round
  rw [repeatFrom.eq_def]
  simp only [more, failed, mild, behind, Bool.false_eq_true, if_false]

variable {origin : State} {best : Option MatchError} {next : Option MatchError → Step τ}

theorem orElse_of_ok {output : Output τ} (attempt : step s = r)
    (succeeded : r.outcome = .ok output) : orElse origin best step next s = r := by
  subst attempt
  rw [orElse, succeeded]

/-- An alternative that fails is taken back, and the next one is tried. -/
theorem orElse_of_error (attempt : step s = r) (failed : r.outcome = .error error)
    (behind : (r.backTo origin).outcome = .error back) :
    orElse origin best step next s =
      if back.isFatal then r.backTo origin
      else (next (some (further best back)) (r.backTo origin).state).after
        (r.backTo origin).log := by
  subst attempt
  rw [orElse, failed]
  simp only [behind]

end Step

/-! ## Small states -/

theorem Reader.Valid.length_remaining_le {r : Reader} (valid : r.Valid) :
    r.remaining.length ≤ r.text.length := by
  obtain ⟨front, whole, _⟩ := valid.split
  rw [whole, List.length_append]
  exact Nat.le_add_left _ _

/-- The reader stands between two characters of a text with fewer than `largest` of them, and
`depth` rules are open. -/
structure State.Small (largest depth : Nat) (s : State) : Prop where
  ready : s.Ready depth
  short : s.reader.text.length < largest

namespace State.Small

variable {largest depth : Nat} {s : State}

theorem save (small : s.Small largest depth) :
    Small largest depth { s with reader := s.reader.save } :=
  ⟨⟨small.ready.valid, small.ready.depth⟩, small.short⟩

theorem opened (small : s.Small largest depth) :
    Small largest (depth + 1) { s with depth := s.depth + 1 } :=
  ⟨⟨small.ready.valid, congrArg Nat.succ small.ready.depth⟩, small.short⟩

end State.Small

/-! ## Runs without bounds -/

/-- What is to be done in a run. -/
inductive Work (π : Type) where
  | one (m : Matcher π)
  /-- The rest of a sequence. -/
  | all (ms : List (Matcher π))
  /-- The alternatives that are left, to be tried from `origin`; `best` is the failure that has
  gone furthest. -/
  | first (origin : State) (best : Option MatchError) (ms : List (Matcher π))
  /-- The loop of a repetition that has begun at `start`, when its counter is at `count`. -/
  | loop (m : Matcher π) (start : Location) (min : Nat) (max : Option Nat) (count : Nat)

namespace Engine

variable {π τ : Type} [CharTest π]

/-- From a state the work ends with a report. Where a matcher or a rule has parts, the reports of
the parts are put together as its step does it, given steps that only tell these reports. The
counter of a loop goes up to `largest`; a loop that would have to count further has no report. -/
inductive Evaluates (e : Engine π τ) (largest : Nat) : Work π → State → Report τ → Prop
  | char {s cls} :
      Evaluates e largest (.one (.char cls)) s
        (Step.char cls.accepts (Matcher.char cls).render s)
  | text {s t} :
      Evaluates e largest (.one (.text t)) s
        (Step.text t (.mismatch (Matcher.text t : Matcher π).render) s)
  | endOfInput {s} : Evaluates e largest (.one .endOfInput) s (Step.endOfInput s)
  | load {s name} :
      Evaluates e largest (.one (.load name)) s (Step.load name s)
  | sequence {s ms r} :
      Evaluates e largest (.all ms) { s with reader := s.reader.save } r →
      Evaluates e largest (.one (.sequence ms)) s (Step.guarded (fun _ => r) s)
  | choice {s ms r} :
      Evaluates e largest (.first s none ms) s r → Evaluates e largest (.one (.choice ms)) s r
  | repetition {s m min max r} :
      Evaluates e largest (.loop m s.reader.location min max 0)
        { s with reader := s.reader.save } r →
      Evaluates e largest (.one (.repetition m min max)) s (Step.guarded (fun _ => r) s)
  | optional {s m r} :
      Evaluates e largest (.one m) { s with reader := s.reader.save } r →
      Evaluates e largest (.one (.optional m)) s (Step.optional (fun _ => r) s)
  | absent {s m r} :
      Evaluates e largest (.one m) s r →
      Evaluates e largest (.one (.absent m)) s (Step.absent (fun _ => r) s)
  | ref {s name rule r} :
      e.table.rule? name = some rule →
      Evaluates e largest (.one (.rule rule.name rule.definition)) s r →
      Evaluates e largest (.one (.ref name)) s r
  | unknown {s name} :
      e.table.rule? name = none →
      Evaluates e largest (.one (.ref name)) s
        (Step.failHere (.internal s!"rule '{name}' is not in the table") s)
  | rule {s name m r} :
      s.depth < e.settings.maxDepth →
      Evaluates e largest (.one m) { s with depth := s.depth + 1 } r →
      Evaluates e largest (.one (.rule name m)) s
        ((e.traced name (.opened fun _ => r) s).mapOutput (e.shape name))
  | tooDeep {s name m} :
      e.settings.maxDepth ≤ s.depth →
      Evaluates e largest (.one (.rule name m)) s
        (Step.failHere (.depthLimit e.settings.maxDepth) s)
  | ignore {s m r} :
      Evaluates e largest (.one m) s r →
      Evaluates e largest (.one (.ignore m)) s (Step.ignore (fun _ => r) s)
  | join {s m r} :
      Evaluates e largest (.one m) s r →
      Evaluates e largest (.one (.join m)) s (Step.join (fun _ => r) s)
  | mark {s m r} :
      Evaluates e largest (.one m) s r →
      Evaluates e largest (.one (.mark m)) s (Step.mark (fun _ => r) s)
  | save {s name m r} :
      Evaluates e largest (.one m) s r →
      Evaluates e largest (.one (.save name m)) s (Step.save name (fun _ => r) s)
  -- The rest of a sequence.
  | done {s} : Evaluates e largest (.all []) s (Step.succeed .empty s)
  | next {s m ms r rest output} :
      Evaluates e largest (.one m) s r → r.outcome = .ok output →
      Evaluates e largest (.all ms) r.state rest →
      Evaluates e largest (.all (m :: ms)) s (r.andThen fun _ => rest)
  | broken {s m ms r error} :
      Evaluates e largest (.one m) s r → r.outcome = .error error →
      Evaluates e largest (.all (m :: ms)) s r
  -- The alternatives that are left.
  | exhausted {s origin best} :
      Evaluates e largest (.first origin best []) s (Step.exhausted origin best s)
  | chosen {s origin best m ms r output} :
      Evaluates e largest (.one m) s r → r.outcome = .ok output →
      Evaluates e largest (.first origin best (m :: ms)) s r
  | passed {s origin best m ms r rest error back} :
      Evaluates e largest (.one m) s r → r.outcome = .error error →
      (r.backTo origin).outcome = .error back → back.isFatal = false →
      Evaluates e largest (.first origin (some (Step.further best back)) ms)
        (r.backTo origin).state rest →
      Evaluates e largest (.first origin best (m :: ms)) s (rest.after (r.backTo origin).log)
  | aborted {s origin best m ms r error back} :
      Evaluates e largest (.one m) s r → r.outcome = .error error →
      (r.backTo origin).outcome = .error back → back.isFatal = true →
      Evaluates e largest (.first origin best (m :: ms)) s (r.backTo origin)
  -- A loop. A success that has consumed nothing brings the counter to the minimum.
  | full {s m start min count max} :
      max.any (· ≤ count) = true →
      Evaluates e largest (.loop m start min max count) s (Step.enough start min count none s)
  | moved {s m start min count max r rest output} :
      max.any (· ≤ count) = false → Evaluates e largest (.one m) s r →
      r.outcome = .ok output → count < largest → r.state.reader.position ≠ s.reader.position →
      Evaluates e largest (.loop m start min max (count + 1)) r.state rest →
      Evaluates e largest (.loop m start min max count) s (r.andThen fun _ => rest)
  | still {s m start min count max r output} :
      max.any (· ≤ count) = false → Evaluates e largest (.one m) s r →
      r.outcome = .ok output → count < largest → r.state.reader.position = s.reader.position →
      Evaluates e largest (.loop m start min max count) s
        (r.andThen (Step.enough start min (Nat.max (count + 1) min) none))
  | fatal {s m start min count max r error} :
      max.any (· ≤ count) = false → Evaluates e largest (.one m) s r →
      r.outcome = .error error → error.isFatal = true →
      Evaluates e largest (.loop m start min max count) s r
  | missed {s m start min count max r error back} :
      max.any (· ≤ count) = false → Evaluates e largest (.one m) s r →
      r.outcome = .error error → error.isFatal = false →
      (r.backTo s).outcome = .error back → back.isFatal = false →
      Evaluates e largest (.loop m start min max count) s
        ((Step.enough start min count (some back) (r.backTo s).state).after (r.backTo s).log)
  | lost {s m start min count max r error back} :
      max.any (· ≤ count) = false → Evaluates e largest (.one m) s r →
      r.outcome = .error error → error.isFatal = false →
      (r.backTo s).outcome = .error back → back.isFatal = true →
      Evaluates e largest (.loop m start min max count) s (r.backTo s)

/-! ## A run comes to what the steps come to -/

/-- The report is what the steps with their bounds come to. For a loop that is so with any
bound that allows more rounds than there are characters ahead. -/
def Tells (e : Engine π τ) : Work π → State → Report τ → Prop
  | .one m, s, r => e.step m s = r
  | .all ms, s, r => e.evalSequence (e.enter (e.settings.maxDepth - s.depth)) ms s = r
  | .first origin best ms, s, r =>
    s = origin → e.evalChoice (e.enter (e.settings.maxDepth - s.depth)) origin best ms s = r
  | .loop m start min max count, s, r =>
    ∀ bound, s.reader.remaining.length ≤ bound →
      Step.repeatFrom (e.eval (e.enter (e.settings.maxDepth - s.depth)) m) start min max
        (bound + 1) count s = r

variable {e : Engine π τ} {largest : Nat} {w : Work π} {m : Matcher π} {s : State} {r : Report τ}

theorem ready_step (e : Engine π τ) (m : Matcher π) (valid : s.reader.Valid) {output : Output τ}
    (succeeded : (e.step m s).outcome = .ok output) : (e.step m s).state.Ready s.depth :=
  (e.means_step s.depth m s ⟨valid, rfl⟩).ready_of_ok ⟨valid, rfl⟩ succeeded

theorem backTo_step (e : Engine π τ) (m : Matcher π) (valid : s.reader.Valid) :
    (e.step m s).backTo s = { e.step m s with state := s } :=
  Step.backTo_eq_of_follows valid (e.means_step s.depth m s ⟨valid, rfl⟩)

theorem length_remaining_lt (e : Engine π τ) (m : Matcher π) (valid : s.reader.Valid)
    {output : Output τ} (succeeded : (e.step m s).outcome = .ok output)
    (moved : (e.step m s).state.reader.position ≠ s.reader.position) :
    (e.step m s).state.reader.remaining.length < s.reader.remaining.length :=
  (e.means_step s.depth m s ⟨valid, rfl⟩).length_ahead_lt valid succeeded moved

theorem evalChoice_cons (e : Engine π τ) (enter : String → Matcher π → Step τ) (origin : State)
    (best : Option MatchError) (m : Matcher π) (ms : List (Matcher π)) :
    e.evalChoice enter origin best (m :: ms) =
      Step.orElse origin best (e.eval enter m) fun best => e.evalChoice enter origin best ms := rfl

/-- A run without bounds comes to what the steps come to. -/
theorem Evaluates.tells (h : e.Evaluates largest w s r) (valid : s.reader.Valid) :
    e.Tells w s r := by
  induction h with
  | char | text | endOfInput | load | done => rfl
  | choice _ ih => exact ih valid rfl
  | sequence _ ih | optional _ ih | absent _ ih | ignore _ ih | join _ ih | mark _ ih
  | save _ ih =>
    obtain rfl := ih valid
    rfl
  | repetition _ ih =>
    obtain rfl := ih valid _ (Nat.le_refl _)
    rfl
  | @ref s name rule r known _ ih =>
    obtain rfl := ih valid
    simp only [Tells, step, eval, known]
  | @unknown s name unknown =>
    simp only [Tells, step, eval, unknown]
  | @rule s name m r under _ ih =>
    obtain rfl := ih valid
    obtain ⟨levels, size⟩ := Nat.exists_eq_add_one_of_ne_zero (Nat.sub_ne_zero_of_lt under)
    have fewer : e.settings.maxDepth - (s.depth + 1) = levels := by omega
    simp only [Tells, step, eval, size, enter, if_neg (Nat.not_le.mpr under), fewer]
    rfl
  | @tooDeep s name m full =>
    simp only [Tells, step, eval, Nat.sub_eq_zero_of_le full, enter]
  | next _ succeeded _ first rest =>
    obtain rfl := first valid
    have ready := e.ready_step _ valid succeeded
    obtain rfl := rest ready.valid
    rw [ready.depth]
    rfl
  | @broken s m ms r error _ failed first =>
    obtain rfl := first valid
    show (e.step m s).andThen _ = _
    rw [Report.andThen, failed]
  | exhausted => exact fun _ => rfl
  | chosen _ succeeded first =>
    rintro rfl
    rw [evalChoice_cons]
    exact Step.orElse_of_ok (first valid) succeeded
  | @passed s origin best m ms r rest error back _ failed behind mild _ first later =>
    obtain rfl := first valid
    rintro rfl
    have attempt : e.eval (e.enter (e.settings.maxDepth - s.depth)) m s = e.step m s := rfl
    have same := e.backTo_step m valid
    obtain rfl := later (same ▸ valid) (by rw [same])
    rw [evalChoice_cons, Step.orElse_of_error attempt failed behind, mild, same]
    rfl
  | @aborted s origin best m ms r error back _ failed behind fatal first =>
    rintro rfl
    have attempt : e.eval (e.enter (e.settings.maxDepth - s.depth)) m s = r := first valid
    rw [evalChoice_cons, Step.orElse_of_error attempt failed behind, if_pos fatal]
  | full stop =>
    intro bound few
    unfold Step.repeatFrom
    rw [if_pos stop]
  | @moved s m start min count max r rest output more _ succeeded _ away _ first later =>
    intro bound few
    obtain rfl := first valid
    have round : e.eval (e.enter (e.settings.maxDepth - s.depth)) m s = e.step m s := rfl
    have ready := e.ready_step m valid succeeded
    have shorter := e.length_remaining_lt m valid succeeded away
    obtain ⟨bound, rfl⟩ : ∃ n, bound = n + 1 := Nat.exists_eq_add_one_of_ne_zero (by omega)
    obtain rfl := later ready.valid bound (by omega)
    rw [Step.repeatFrom_of_ok more round succeeded, if_neg away, ready.depth]
    rfl
  | @still s m start min count max r output more _ succeeded _ stays first =>
    intro bound _
    have round : e.eval (e.enter (e.settings.maxDepth - s.depth)) m s = r := first valid
    rw [Step.repeatFrom_of_ok more round succeeded, if_pos stays,
      Report.andThen_enough succeeded start (Nat.le_max_right _ _)]
  | @fatal s m start min count max r error more _ failed fatal first =>
    exact fun bound _ => Step.repeatFrom_of_fatal more (first valid) failed fatal
  | @missed s m start min count max r error back more _ failed mild behind mild' first =>
    intro bound _
    have round : e.eval (e.enter (e.settings.maxDepth - s.depth)) m s = r := first valid
    rw [Step.repeatFrom_of_error more round failed mild behind, mild']
    rfl
  | @lost s m start min count max r error back more _ failed mild behind fatal first =>
    intro bound _
    have round : e.eval (e.enter (e.settings.maxDepth - s.depth)) m s = r := first valid
    rw [Step.repeatFrom_of_error more round failed mild behind, if_pos fatal]

/-! ## There is a run -/

/-- From every such state there is a run of the matcher. -/
def Ends (e : Engine π τ) (largest depth : Nat) (m : Matcher π) : Prop :=
  ∀ s : State, s.Small largest depth → ∃ r, e.Evaluates largest (.one m) s r

variable {depth : Nat}

theorem small_step (e : Engine π τ) (m : Matcher π) (small : s.Small largest depth)
    {output : Output τ} (succeeded : (e.step m s).outcome = .ok output) :
    (e.step m s).state.Small largest depth := by
  obtain ⟨⟨valid, rfl⟩, short⟩ := small
  exact ⟨e.ready_step m valid succeeded, (e.kept_step m valid).text ▸ short⟩

theorem exists_all {ms : List (Matcher π)} (h : ∀ m ∈ ms, e.Ends largest depth m)
    (small : s.Small largest depth) : ∃ r, e.Evaluates largest (.all ms) s r := by
  induction ms generalizing s with
  | nil => exact ⟨_, .done⟩
  | cons m ms ih =>
    obtain ⟨r, first⟩ := h m List.mem_cons_self s small
    obtain rfl : e.step m s = r := first.tells small.ready.valid
    cases outcome : (e.step m s).outcome with
    | error error => exact ⟨_, .broken first outcome⟩
    | ok output =>
      obtain ⟨rest, later⟩ := ih (fun m hm => h m (List.mem_cons_of_mem _ hm))
        (e.small_step m small outcome)
      exact ⟨_, .next first outcome later⟩

theorem exists_first {ms : List (Matcher π)} (h : ∀ m ∈ ms, e.Ends largest depth m)
    (small : s.Small largest depth) (best : Option MatchError) :
    ∃ r, e.Evaluates largest (.first s best ms) s r := by
  induction ms generalizing best with
  | nil => exact ⟨_, .exhausted⟩
  | cons m ms ih =>
    obtain ⟨r, first⟩ := h m List.mem_cons_self s small
    obtain rfl : e.step m s = r := first.tells small.ready.valid
    have same := e.backTo_step m small.ready.valid
    cases outcome : (e.step m s).outcome with
    | ok output => exact ⟨_, .chosen first outcome⟩
    | error error =>
      have behind : ((e.step m s).backTo s).outcome = .error error := same ▸ outcome
      cases fatal : error.isFatal with
      | true => exact ⟨_, .aborted first outcome behind fatal⟩
      | false =>
        obtain ⟨rest, later⟩ := ih (fun m hm => h m (List.mem_cons_of_mem _ hm))
          (some (Step.further best error))
        have onward : e.Evaluates largest (.first s (some (Step.further best error)) ms)
            ((e.step m s).backTo s).state rest := by
          rw [same]
          exact later
        exact ⟨_, .passed first outcome behind fatal onward⟩

/-- The induction is on a bound for the characters ahead. Each round that is not the last consumes
one of them, so the counter can go on for as long as there are rounds. -/
theorem exists_loop (h : e.Ends largest depth m) (start : Location) (min : Nat)
    (max : Option Nat) {bound : Nat} : ∀ {count : Nat} {s : State}, s.Small largest depth →
      s.reader.remaining.length < bound → count + bound ≤ largest →
      ∃ r, e.Evaluates largest (.loop m start min max count) s r := by
  induction bound with
  | zero => exact fun _ few => absurd few (Nat.not_lt_zero _)
  | succ bound ih =>
    intro count s small few room
    cases more : max.any (· ≤ count) with
    | true => exact ⟨_, .full more⟩
    | false =>
      have valid := small.ready.valid
      obtain ⟨r, round⟩ := h s small
      obtain rfl : e.step m s = r := round.tells valid
      cases outcome : (e.step m s).outcome with
      | ok output =>
        have next : count < largest := by omega
        by_cases stays : (e.step m s).state.reader.position = s.reader.position
        · exact ⟨_, .still more round outcome next stays⟩
        · have shorter := e.length_remaining_lt m valid outcome stays
          have room' : (count + 1) + bound ≤ largest := by omega
          obtain ⟨rest, later⟩ := ih (e.small_step m small outcome) (by omega) room'
          exact ⟨_, .moved more round outcome next stays later⟩
      | error error =>
        cases fatal : error.isFatal with
        | true => exact ⟨_, .fatal more round outcome fatal⟩
        | false =>
          have behind : ((e.step m s).backTo s).outcome = .error error :=
            e.backTo_step m valid ▸ outcome
          exact ⟨_, .missed more round outcome fatal behind fatal⟩

theorem ends_of_rules (h : ∀ name m, e.Ends largest depth (.rule name m)) (m : Matcher π) :
    e.Ends largest depth m := by
  induction m with
  | char | text | endOfInput | load => exact fun s _ => ⟨_, by constructor⟩
  | sequence ms ih =>
    intro s small
    obtain ⟨r, run⟩ := exists_all ih small.save
    exact ⟨_, .sequence run⟩
  | choice ms ih =>
    intro s small
    obtain ⟨r, run⟩ := exists_first ih small none
    exact ⟨_, .choice run⟩
  | repetition m min max ih =>
    intro s small
    have room : 0 + (s.reader.text.length + 1) ≤ largest := by
      have short := small.short
      omega
    obtain ⟨r, run⟩ := exists_loop ih s.reader.location min max small.save
      (Nat.lt_succ_of_le small.ready.valid.length_remaining_le) room
    exact ⟨_, .repetition run⟩
  | optional m ih =>
    intro s small
    obtain ⟨r, run⟩ := ih _ small.save
    exact ⟨_, .optional run⟩
  | ref name =>
    intro s small
    cases known : e.table.rule? name with
    | none => exact ⟨_, .unknown known⟩
    | some rule =>
      obtain ⟨r, run⟩ := h rule.name rule.definition s small
      exact ⟨_, .ref known run⟩
  | rule name m _ => exact h name m
  | absent m ih | ignore m ih | join m ih | mark m ih | save name m ih =>
    intro s small
    obtain ⟨r, run⟩ := ih s small
    exact ⟨_, by constructor; exact run⟩

theorem ends_rule {levels : Nat} (size : e.settings.maxDepth - depth = levels) (name : String)
    (m : Matcher π) : e.Ends largest depth (.rule name m) := by
  induction levels generalizing depth name m with
  | zero =>
    intro s small
    exact ⟨_, .tooDeep (small.ready.depth ▸ Nat.le_of_sub_eq_zero size)⟩
  | succ levels ih =>
    intro s small
    -- In the body one rule more is open and one less may still be opened.
    have fewer : e.settings.maxDepth - (depth + 1) = levels := by omega
    have body := ends_of_rules (ih fewer) m
    obtain ⟨r, run⟩ := body { s with depth := s.depth + 1 } small.opened
    exact ⟨_, .rule (small.ready.depth ▸ by omega) run⟩

/-- From each state there is a run, whatever the rules. -/
theorem ends (e : Engine π τ) (largest depth : Nat) (m : Matcher π) : e.Ends largest depth m :=
  ends_of_rules (ends_rule rfl) m

/-! ## The counter of a loop -/

/-- In the loop of a repetition that begins in `s`, `n` rounds have matched and have led to the
state `t`. The counter is at `count`, and `going` tells whether the loop goes on. -/
inductive Counts (e : Engine π τ) (largest : Nat) (m : Matcher π) (min : Nat) (max : Option Nat)
    (s : State) : (n count : Nat) → (going : Bool) → State → Prop
  | start : Counts e largest m min max s 0 0 true s
  | moved {n count t r output} :
      Counts e largest m min max s n count true t → max.any (· ≤ count) = false →
      e.Evaluates largest (.one m) t r → r.outcome = .ok output →
      r.state.reader.position ≠ t.reader.position →
      Counts e largest m min max s (n + 1) (count + 1) true r.state
  | still {n count t r output} :
      Counts e largest m min max s n count true t → max.any (· ≤ count) = false →
      e.Evaluates largest (.one m) t r → r.outcome = .ok output →
      r.state.reader.position = t.reader.position →
      Counts e largest m min max s (n + 1) (Nat.max (count + 1) min) false r.state

/-- While a loop goes on it has counted its rounds, and each has consumed a character. -/
theorem Counts.going {min n count : Nat} {max : Option Nat} {going : Bool} {t : State}
    (h : e.Counts largest m min max s n count going t) (valid : s.reader.Valid) :
    going = true → count = n ∧ t.reader.Valid ∧
      n + t.reader.remaining.length ≤ s.reader.remaining.length := by
  induction h with
  | start => exact fun _ => ⟨rfl, valid, by omega⟩
  | moved _ _ round succeeded away ih =>
    intro _
    obtain ⟨rfl, valid', few⟩ := ih rfl
    obtain rfl := round.tells valid'
    have shorter := e.length_remaining_lt m valid' succeeded away
    exact ⟨rfl, (e.kept_step m valid').valid, by omega⟩
  | still => exact fun h => nomatch h

/-- There is at most one round more than there are characters ahead. -/
theorem Counts.bounded {min n count : Nat} {max : Option Nat} {going : Bool} {t : State}
    (h : e.Counts largest m min max s n count going t) (valid : s.reader.Valid) :
    n ≤ s.reader.remaining.length + 1 ∧ count ≤ Nat.max n min := by
  cases going with
  | true =>
    obtain ⟨rfl, _, few⟩ := h.going valid rfl
    exact ⟨by omega, Nat.le_max_left _ _⟩
  | false =>
    cases h with
    | still before =>
      obtain ⟨rfl, _, few⟩ := before.going valid rfl
      exact ⟨by omega, Nat.le_refl _⟩

/-- Beside any rules, with any settings and from every state whose reader stands between two
characters, a matcher has exactly one run without bounds. It ends with what the step with
its bounds comes to. Every loop from such a state makes at most one successful round more than
there are characters ahead. As far as the counter can hold the number of the characters and the
minimum it never has to count further than it can. -/
theorem evaluates_exact (e : Engine π τ) (m : Matcher π) (valid : s.reader.Valid)
    (short : s.reader.text.length < largest) :
    (∀ r, e.Evaluates largest (.one m) s r ↔ r = e.step m s) ∧
    ∀ min max n count going t, e.Counts largest m min max s n count going t →
      n ≤ s.reader.remaining.length + 1 ∧ n ≤ largest ∧ (min ≤ largest → count ≤ largest) := by
  refine ⟨fun r => ⟨fun run => (run.tells valid).symm, ?_⟩, ?_⟩
  · rintro rfl
    obtain ⟨r, run⟩ := e.ends largest s.depth m s ⟨⟨valid, rfl⟩, short⟩
    obtain rfl : e.step m s = r := run.tells valid
    exact run
  · intro min max n count going t counts
    obtain ⟨rounds, counted⟩ := counts.bounded valid
    have few := valid.length_remaining_le
    have fits : n ≤ largest := by omega
    exact ⟨rounds, fits, fun room => Nat.le_trans counted (Nat.max_le.mpr ⟨fits, room⟩)⟩

/-- A left-recursive rule, whose other alternative repeats an optional character without bound and
asks for the largest number of it. The checks refuse the rule. A run of the rule ends at the
limit. The loop, in front of `"yz"`, makes two successful rounds, and the second brings its
counter to the minimum. -/
theorem evaluates_left_recursive :
    let largest : Nat := UInt64.size - 1
    let item : Matcher Empty := .optional (.char (.only 'y'))
    let items : Matcher Empty := .repetition item largest none
    let list : Matcher Empty := .choice [.sequence [.ref "list", .char (.only ',')], items]
    let rules : List (Rule Empty Nat) := [⟨"list", list, default, none⟩]
    let g : Grammar Empty Nat := ⟨rules, some "list", { maxDepth := 3 }⟩
    let e : Engine Empty Nat := ⟨⟨rules, NullMap.compute rules, g.root, g.settings⟩, g.settings⟩
    let s : State := ⟨.ofText ['y', 'z'], [], 0⟩
    let behind : State := { s with reader := s.reader.advance 1 }
    g.problem? ≠ none ∧ s.reader.Valid ∧ s.reader.text.length < largest ∧
      (∀ r, e.Evaluates largest (.one (.ref "list")) s r ↔
        r = ⟨.error (.of (.depthLimit 3) .start), s, .empty⟩) ∧
      (∀ r, e.Evaluates largest (.one items) s r ↔ r = ⟨.ok ⟨[['y']], []⟩, behind, .empty⟩) ∧
      e.Counts largest item largest none s 2 (Nat.max 2 largest) false behind ∧
      ∀ n count going t, e.Counts largest item largest none s n count going t →
        n ≤ 3 ∧ n ≤ largest ∧ count ≤ largest := by
  intro largest item items list rules g e s behind
  have refused : g.problem? ≠ none := by decide
  have short : s.reader.text.length < largest := by decide
  have limited : e.step (.ref "list") s = ⟨.error (.of (.depthLimit 3) .start), s, .empty⟩ := by
    decide +kernel
  have matched : e.step items s = ⟨.ok ⟨[['y']], []⟩, behind, .empty⟩ := by decide +kernel
  have first : e.step item s = ⟨.ok ⟨[['y']], []⟩, behind, .empty⟩ := by decide +kernel
  have second : e.step item behind = ⟨.ok ⟨[], []⟩, behind, .empty⟩ := by decide +kernel
  obtain ⟨runs, counts⟩ := evaluates_exact e item (s := s) rfl short
  obtain ⟨runs', _⟩ := evaluates_exact e item (s := behind) rfl short
  have counted : e.Counts largest item largest none s 2 (Nat.max 2 largest) false behind :=
    .still (.moved .start rfl ((runs _).mpr first.symm) rfl (by decide)) rfl
      ((runs' _).mpr second.symm) rfl rfl
  refine ⟨refused, rfl, short, fun r => ?_, fun r => ?_, counted, fun n count going t h => ?_⟩
  · rw [← limited]
    exact (evaluates_exact e (.ref "list") (s := s) rfl short).1 r
  · rw [← matched]
    exact (evaluates_exact e items (s := s) rfl short).1 r
  · obtain ⟨rounds, fits, counter⟩ := counts largest none n count going t h
    exact ⟨rounds, fits, counter (Nat.le_refl _)⟩

end Engine

end Peg
