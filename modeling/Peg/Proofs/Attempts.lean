import Mathlib.Logic.Relation
import Peg.Proofs.ParsedRuns

/-!
# Nothing goes wrong during a match

In the course of a match other matchers are tried, each from some state: the children of a
matcher, one after the other or over and over, and the bodies of rules. `Engine.Makes` lists
these attempts. The save points are balanced around each of them and the cursor stands
between two characters, whichever children have failed before and wherever the run began
(`Engine.Makes.within`). So beside the rules of a built table no attempt ever finds a save
point missing, a place it cannot go back to or a rule that there is not
(`Engine.run_never_internal`).
-/

namespace Peg

/-- A matcher that is tried in a state. -/
structure Attempt (π : Type) where
  matcher : Matcher π
  state : State

variable {π τ : Type}

namespace Engine

/-- The attempts that the first one makes itself. Where a sequence or a repetition goes on,
it does so in the state that the last child has left, and a choice goes on from where it has
gone back to. A repetition is taken to go on as long as its child matches, so that some
attempts are listed that it does not come to. -/
inductive Makes [CharTest π] (e : Engine π τ) : Attempt π → Attempt π → Prop
  | sequence_first {m : Matcher π} {ms : List (Matcher π)} {s : State} :
      Makes e ⟨.sequence (m :: ms), s⟩ ⟨m, { s with reader := s.reader.save }⟩
  | sequence_next {before : List (Matcher π)} {m next : Matcher π} {behind : List (Matcher π)}
      {s t : State} {output : Output τ} :
      Makes e ⟨.sequence (before ++ m :: next :: behind), s⟩ ⟨m, t⟩ →
      (e.step m t).outcome = .ok output →
      Makes e ⟨.sequence (before ++ m :: next :: behind), s⟩ ⟨next, (e.step m t).state⟩
  | choice_first {m : Matcher π} {ms : List (Matcher π)} {s : State} :
      Makes e ⟨.choice (m :: ms), s⟩ ⟨m, s⟩
  | choice_next {before : List (Matcher π)} {m next : Matcher π} {behind : List (Matcher π)}
      {s t : State} {error : MatchError} :
      Makes e ⟨.choice (before ++ m :: next :: behind), s⟩ ⟨m, t⟩ →
      (e.step m t).outcome = .error error → error.isFatal = false →
      Makes e ⟨.choice (before ++ m :: next :: behind), s⟩ ⟨next, ((e.step m t).backTo s).state⟩
  | repetition_first {m : Matcher π} {min : Nat} {max : Option Nat} {s : State} :
      Makes e ⟨.repetition m min max, s⟩ ⟨m, { s with reader := s.reader.save }⟩
  | repetition_next {m : Matcher π} {min : Nat} {max : Option Nat} {s t : State}
      {output : Output τ} :
      Makes e ⟨.repetition m min max, s⟩ ⟨m, t⟩ → (e.step m t).outcome = .ok output →
      Makes e ⟨.repetition m min max, s⟩ ⟨m, (e.step m t).state⟩
  | optional {m : Matcher π} {s : State} :
      Makes e ⟨.optional m, s⟩ ⟨m, { s with reader := s.reader.save }⟩
  | absent {m : Matcher π} {s : State} : Makes e ⟨.absent m, s⟩ ⟨m, s⟩
  | ref {name : String} {r : Rule π τ} {s : State} :
      e.table.rule? name = some r → Makes e ⟨.ref name, s⟩ ⟨r.body, s⟩
  | rule {name : String} {m : Matcher π} {s : State} :
      s.depth < e.settings.maxDepth →
      Makes e ⟨.rule name m, s⟩ ⟨m, { s with depth := s.depth + 1 }⟩
  | ignore {m : Matcher π} {s : State} : Makes e ⟨.ignore m, s⟩ ⟨m, s⟩
  | join {m : Matcher π} {s : State} : Makes e ⟨.join m, s⟩ ⟨m, s⟩
  | mark {m : Matcher π} {s : State} : Makes e ⟨.mark m, s⟩ ⟨m, s⟩
  | save {name : String} {m : Matcher π} {s : State} : Makes e ⟨.save name m, s⟩ ⟨m, s⟩

end Engine

/-- The reader has moved within its text, and save points were only added to those it had. -/
structure Reader.Within (origin r : Reader) : Prop where
  text : r.text = origin.text
  saves : origin.saves <:+ r.saves
  valid : r.Valid

namespace Reader.Within

variable {origin r r' : Reader}

theorem refl (valid : r.Valid) : r.Within r := ⟨rfl, List.suffix_rfl, valid⟩

theorem trans (h : origin.Within r) (h' : r.Within r') : origin.Within r' :=
  ⟨h'.text.trans h.text, h.saves.trans h'.saves, h'.valid⟩

theorem save (valid : r.Valid) : r.Within r.save :=
  ⟨rfl, List.suffix_cons _ _, valid⟩

end Reader.Within

namespace Engine

variable [CharTest π] {e : Engine π τ} {a b : Attempt π}

/-- An attempt is made by a reader within the text, on top of the save points that the one
it is made for began with. -/
theorem Makes.within (h : e.Makes a b) (valid : a.state.reader.Valid) :
    a.state.reader.Within b.state.reader := by
  have onward : ∀ {s t : State} (m : Matcher π), s.reader.Within t.reader →
      s.reader.Within (e.step m t).state.reader := fun m within =>
    have kept := e.kept_step m within.valid
    ⟨kept.text.trans within.text, kept.saves.symm ▸ within.saves, kept.valid⟩
  induction h with
  | sequence_first | repetition_first | optional => exact .save valid
  | sequence_next _ _ ih | repetition_next _ _ ih => exact onward _ (ih valid)
  | @choice_next _ m _ _ s t _ _ _ _ ih =>
    -- The attempt that failed has kept the text, so the choice can go back in it.
    have left := onward m (ih valid)
    rw [Report.backTo, Reader.rewind_location valid left.text]
    refine ⟨left.text, left.saves, ?_⟩
    show (e.step m t).state.reader.text.isBoundary s.reader.position = true
    rw [left.text]
    exact valid
  | choice_first | absent | ref | rule | ignore | join | mark | save => exact .refl valid

/-- What is tried can be run, if what it is tried for can. -/
theorem Makes.runnable (h : e.Makes a b) (sound : e.table.Sound)
    (runnable : a.matcher.Runnable e.table.names) : b.matcher.Runnable e.table.names := by
  cases h with
  | ref found => exact sound.runnable found
  | sequence_next | choice_next => exact runnable.child (by simp [Matcher.children])
  | sequence_first | choice_first => exact runnable.child List.mem_cons_self
  | repetition_first | repetition_next | optional | absent | rule | ignore | join | mark | save =>
    exact runnable.child List.mem_cons_self

/-! ## Attempts that go well -/

/-- An attempt of a run that began with the reader `origin` does not go wrong: it is no
internal failure, nor does it find anything that would make it one. -/
structure GoesWell (e : Engine π τ) (origin : Reader) (a : Attempt π) : Prop where
  outcome : ∀ error, (e.step a.matcher a.state).outcome = .error error →
    ∀ reason, error.top.kind ≠ .internal reason
  /-- No save point is missing. -/
  within : origin.Within a.state.reader
  kept : a.state.reader.Kept (e.step a.matcher a.state).state.reader
  /-- No rule is missing. -/
  found : ∀ name, a.matcher = .ref name → ∃ r, e.table.rule? name = some r

/-- A matcher that can be run fails, if it does, for a reason in the text or at the limit. -/
theorem not_internal_of_runnable (sound : e.table.Sound) {m : Matcher π}
    (runnable : m.Runnable e.table.names) {s : State} (valid : s.reader.Valid)
    {error : MatchError} (failed : (e.step m s).outcome = .error error) (reason : String) :
    error.top.kind ≠ .internal reason := by
  obtain ⟨v, _, gives⟩ := exists_parses e.settings sound s.depth runnable s.point s.saved
  have tells := (e.means_step s.depth m s ⟨valid, rfl⟩).tells gives
  generalize e.step m s = r at tells failed
  intro internal
  cases tells with
  | ok => cases failed
  | fail mild =>
    cases failed
    rw [MatchError.isFatal, internal] at mild
    cases mild
  | abort =>
    cases failed
    cases internal

/-- All attempts that are made in the course of one that can be run go well. -/
theorem goesWell_of_makes (sound : e.table.Sound) (valid : a.state.reader.Valid)
    (runnable : a.matcher.Runnable e.table.names) (h : Relation.ReflTransGen e.Makes a b) :
    e.GoesWell a.state.reader b := by
  have inside : a.state.reader.Within b.state.reader ∧ b.matcher.Runnable e.table.names := by
    induction h with
    | refl => exact ⟨.refl valid, runnable⟩
    | tail _ made ih => exact ⟨ih.1.trans (made.within ih.1.valid), made.runnable sound ih.2⟩
  obtain ⟨within, runnable'⟩ := inside
  refine ⟨fun error failed => not_internal_of_runnable sound runnable' within.valid failed,
    within, e.kept_step _ within.valid, fun name same => ?_⟩
  have node := runnable'.node
  rw [same] at node
  exact RuleTable.exists_rule? node

/-! ## Runs -/

/-- The runs that can be asked for, each with the matcher that it executes. -/
inductive Runs (e : Engine π τ) (reader : Reader) : Matcher π → Run τ → Prop
  | run {m : Matcher π} {x : Run τ} : e.run m reader = .ok x → Runs e reader m x
  | rule {name : String} {r : Rule π τ} {x : Run τ} :
      e.table.rule? name = some r → e.runRule name reader = .ok x → Runs e reader r.body x
  | root {r : Rule π τ} {x : Run τ} :
      e.table.rootRule? = some r → e.runRoot reader = .ok x → Runs e reader r.body x

theorem Runs.eq_execute {m : Matcher π} {x : Run τ} {reader : Reader} (h : e.Runs reader m x) :
    x = e.execute m reader := by
  cases h with
  | run ran =>
    unfold Engine.run at ran
    split at ran
    · cases ran
    · exact (Except.ok.inj ran).symm
  | rule found ran =>
    rw [runRule, found] at ran
    exact (Except.ok.inj ran).symm
  | root found ran =>
    rw [runRoot, found] at ran
    exact (Except.ok.inj ran).symm

theorem Runs.runnable {m : Matcher π} {x : Run τ} {reader : Reader} (h : e.Runs reader m x)
    (sound : e.table.Sound) : m.Runnable e.table.names := by
  cases h with
  | run ran =>
    unfold Engine.run at ran
    split at ran
    · cases ran
    · next checked =>
      obtain ⟨closed, formed⟩ := RuleTable.problem?_eq_none_iff.mp checked
      exact Matcher.runnable_of_formed closed formed
  | rule found => exact sound.runnable found
  | root found =>
    obtain ⟨name, _, found⟩ := Option.bind_eq_some_iff.mp found
    exact sound.runnable found

theorem outcome_of_execute {m : Matcher π} {reader : Reader} {error : MatchError}
    (failed : (e.execute m reader).result.error? = some error) :
    (e.step m ⟨reader, [], 0⟩).outcome = .error error := by
  unfold execute at failed
  generalize e.step m ⟨reader, [], 0⟩ = r at failed ⊢
  obtain ⟨outcome, state, log⟩ := r
  cases outcome with
  | ok output => cases failed
  | error error =>
    cases failed
    rfl

/-- Whatever run is asked for beside the rules of a built table, optimized or not, and
wherever the reader has been left before: neither the run nor any attempt in the course of
it ends with an internal failure, and what would lead to one does not happen. -/
theorem run_never_internal {g : Grammar π τ} {t t' : RuleTable π τ} {events : List TableEvent}
    (built : g.build = .ok (t, events)) (beside : t' ∈ [t, t.optimized.1]) (settings : Settings)
    {reader : Reader} (reachable : reader.Reachable) {m : Matcher π} {x : Run τ}
    (runs : Engine.Runs ⟨t', settings⟩ reader m x) :
    x = Engine.execute ⟨t', settings⟩ m reader ∧
    (∀ error, x.result.error? = some error → ∀ reason, error.top.kind ≠ .internal reason) ∧
    ∀ a, Relation.ReflTransGen (Engine.Makes ⟨t', settings⟩) ⟨m, ⟨reader, [], 0⟩⟩ a →
      Engine.GoesWell ⟨t', settings⟩ reader a := by
  let e : Engine π τ := ⟨t', settings⟩
  have sound : e.table.Sound := by
    rcases List.mem_pair.mp beside with rfl | rfl
    · exact .of_build built
    · exact (RuleTable.Sound.of_build built).optimized
  have all : ∀ a, Relation.ReflTransGen e.Makes ⟨m, ⟨reader, [], 0⟩⟩ a → e.GoesWell reader a :=
    fun a => goesWell_of_makes sound reachable.valid (runs.runnable sound)
  refine ⟨runs.eq_execute, fun error failed => ?_, all⟩
  refine (all ⟨m, ⟨reader, [], 0⟩⟩ .refl).outcome error ?_
  rw [runs.eq_execute] at failed
  exact outcome_of_execute failed

/-- Nested lists whose items end as they began, in a reader that has jumped to a place with a
line and a column made up and has a save point at the end of the text. The inner list is not
closed, so items and lists are given up at every level. -/
theorem never_internal_unclosed_list :
    let item : Matcher Empty :=
      .choice [.char (.only 'x'), .choice [.char (.range 'y' 'z'),
        .sequence [.save "end" (.char (.range 'a' 'b')), .ref "list", .load "end"]]]
    let list : Matcher Empty :=
      .sequence [.char (.only '('), .repetition (.ref "item") 0 none, .char (.only ')')]
    let rules : List (Rule Empty Nat) :=
      [⟨"list", list, default, none⟩, ⟨"item", item, default, none⟩]
    let g : Grammar Empty Nat := ⟨rules, some "list", {}⟩
    let t : RuleTable Empty Nat := ⟨rules, NullMap.compute rules, some "list", {}⟩
    let e : Engine Empty Nat := ⟨t.optimized.1, {}⟩
    let text : Text := ['é', '(', 'x', 'a', '(', 'z', 'a', ')']
    let reader := (((Reader.ofText text).advance 8).save.rewind ⟨7, 40, 2⟩).2
    g.build = .ok (t, [.built 2 "list" false]) ∧ reader.Reachable ∧
      ∃ r x error, e.table.rootRule? = some r ∧ e.runRoot reader = .ok x ∧
        x.result.error? = some error ∧ (∀ reason, error.top.kind ≠ .internal reason) ∧
        e.GoesWell reader ⟨r.definition, ⟨reader, [], 1⟩⟩ := by
  intro item list rules g t e text reader
  have built : g.build = .ok (t, [.built 2 "list" false]) :=
    Grammar.build_of_problem? (by decide) rfl
  have reachable : reader.Reachable := .rewind _ (.save (.advance 8 (.ofText _)))
  obtain ⟨r, found⟩ : ∃ r, e.table.rootRule? = some r :=
    Option.isSome_iff_exists.mp (by decide)
  have ran : e.runRoot reader = .ok (e.execute r.body reader) := by rw [runRoot, found]
  obtain ⟨_, mild, well⟩ := run_never_internal built
    (List.mem_cons_of_mem _ List.mem_cons_self) {} reachable (.root found ran)
  have some : (e.table.rootRule?.bind fun r =>
      (e.execute r.body reader).result.error?).isSome = true := by decide +kernel
  rw [found] at some
  obtain ⟨error, failed⟩ := Option.isSome_iff_exists.mp some
  exact ⟨built, reachable, r, _, error, found, ran, failed, mild error failed,
    well ⟨r.definition, ⟨reader, [], 1⟩⟩ (.single (.rule (by decide)))⟩

end Engine

end Peg
