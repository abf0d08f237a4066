import Peg.Match.Run
import Peg.Proofs.BuiltTables
import Peg.Proofs.ReaderStates
import Peg.Proofs.Refinement

/-!
# Optimizing keeps the meaning

An optimized matcher means what the matcher means (`Engine.denote_optimize`), and rules
mean the same in the optimized table (`Engine.applyRule_optimized`). As matching follows
the meanings, the four ways to run a matcher, optimized or not, beside the rules of a
table, optimized or not, agree in all that a run tells except for the words and the causes
of a failure (`Engine.run_optimized_agree`).
-/

namespace Peg

theorem Location.later_eq_left_of_later_eq_right {a b : Location} (h : a.later b = b) :
    b.later a = b := by
  unfold later at h ⊢
  split
  · next before => rwa [if_neg (Nat.lt_asymm before)] at h
  · rfl

namespace Reading

variable {τ : Type}

/-- If the reading tells of a failure, then of one that is at `l` or further on. -/
def FailsFrom (l : Location) (r : Reading τ) : Prop :=
  ∀ reach, r.verdict = .failed reach → l.later reach = reach

theorem FailsFrom.onFail {l : Location} {r : Reading τ} {failed : Location → Reading τ}
    (h : ∀ reach, (failed reach).FailsFrom l) : (r.onFail failed).FailsFrom l := by
  obtain ⟨verdict, marks⟩ := r
  cases verdict with
  | matched output last saved => exact fun reach same => nomatch same
  | failed reach => exact h reach
  | aborted failure => exact fun reach same => nomatch same

theorem Ahead.failsFrom {p : Point} {r : Reading τ} (h : r.Ahead p) : r.FailsFrom p.location := by
  intro reach same
  obtain ⟨verdict, marks⟩ := r
  cases h with
  | matched | aborted => cases same
  | failed between =>
    cases same
    rw [between.2, Location.later_advanceOver]

/-- Going on from a failure in two ways that agree from `l` on. -/
theorem FailsFrom.onFail_congr {l : Location} {r : Reading τ} (h : r.FailsFrom l)
    {f f' : Location → Reading τ} (same : ∀ reach, l.later reach = reach → f reach = f' reach) :
    r.onFail f = r.onFail f' := by
  obtain ⟨verdict, marks⟩ := r
  cases verdict with
  | matched output last saved => rfl
  | failed reach =>
    rw [onFail_failed, onFail_failed, same reach (h reach rfl)]
  | aborted failure => rfl

/-- A failure that goes on as itself. -/
theorem onFail_just (r : Reading τ) : (r.onFail fun reach => just (.failed reach)) = r := by
  obtain ⟨verdict, marks⟩ := r
  cases verdict with
  | matched output last saved => exact onFail_matched ..
  | failed reach => exact after_just ..
  | aborted failure => rfl

end Reading

theorem Meaning.optional_optional {τ : Type} (f : Meaning τ) :
    Meaning.optional (Meaning.optional f) = Meaning.optional f := by
  funext p saved
  unfold Meaning.optional
  generalize f p saved = r
  obtain ⟨verdict, marks⟩ := r
  cases verdict <;> simp

namespace Engine

variable {π τ : Type} [CharTest π] (e : Engine π τ) {call : String → Matcher π → Meaning τ}

/-! ## Choices -/

theorem denoteChoice_append (as bs : List (Matcher π)) (reach : Location) (p : Point)
    (saved : Saved) :
    e.denoteChoice call (as ++ bs) reach p saved =
      (e.denoteChoice call as reach p saved).onFail fun reach =>
        e.denoteChoice call bs reach p saved := by
  induction as generalizing reach with
  | nil => rfl
  | cons a as ih =>
    rw [List.cons_append, denoteChoice_cons, denoteChoice_cons]
    simp only [ih, Reading.onFail, Reading.resume_resume]
    rfl

/-- What was reached before the attempts of a choice only matters when all have failed. -/
theorem denoteChoice_later (ms : List (Matcher π)) (a b : Location) (p : Point) (saved : Saved) :
    e.denoteChoice call ms (a.later b) p saved =
      (e.denoteChoice call ms b p saved).onFail fun reach => .just (.failed (a.later reach)) := by
  induction ms generalizing b with
  | nil => rfl
  | cons m ms ih =>
    rw [denoteChoice_cons, denoteChoice_cons]
    simp only [Location.later_assoc, ih, Reading.onFail, Reading.resume_resume]
    rfl

theorem denoteChoice_failsFrom (ms : List (Matcher π)) (l reach : Location) (p : Point)
    (saved : Saved) (h : l.later reach = reach) :
    (e.denoteChoice call ms reach p saved).FailsFrom l := by
  induction ms generalizing reach with
  | nil =>
    intro reach' same
    cases same
    exact h
  | cons m ms ih =>
    refine Reading.FailsFrom.onFail fun further => ih _ ?_
    rw [← Location.later_assoc, h]

theorem denoteChoice_chars_of_accepted {run : List (CharClass π)} {p : Point} {c : Char}
    {rest : Text} (next : p.ahead = c :: rest) (accepted : CharRun.Accepted run c)
    (reach : Location) (saved : Saved) :
    e.denoteChoice call (run.map .char) reach p saved =
      .just (.matched (.fragment [c]) (p.past [c]) saved) := by
  induction run generalizing reach with
  | nil => exact absurd accepted (by simp [CharRun.Accepted])
  | cons cls run ih =>
    rw [List.map_cons, denoteChoice_cons, denote]
    by_cases here : cls.accepts c = true
    · rw [Meaning.char_eq_of_accepts next here]
      rfl
    · have refused : ∀ x rest', p.ahead = x :: rest' → ¬ cls.accepts x = true := by
        intro x rest' next'
        cases next.symm.trans next'
        exact here
      have later : CharRun.Accepted run c := by
        obtain ⟨cls', member, accepts⟩ := accepted
        rcases List.mem_cons.mp member with rfl | later
        · exact absurd accepts here
        · exact ⟨cls', later, accepts⟩
      rw [Meaning.char_eq_of_refuses refused]
      exact ih later _

theorem denoteChoice_chars_of_refused {run : List (CharClass π)} {p : Point}
    (refused : ∀ c rest, p.ahead = c :: rest → ¬ CharRun.Accepted run c) {reach : Location}
    (h : p.location.later reach = reach) (saved : Saved) :
    e.denoteChoice call (run.map .char) reach p saved = .just (.failed reach) := by
  induction run with
  | nil => rfl
  | cons cls run ih =>
    have first : ∀ c rest, p.ahead = c :: rest → ¬ cls.accepts c = true :=
      fun c rest next accepts => refused c rest next ⟨cls, List.mem_cons_self, accepts⟩
    have back := Location.later_eq_left_of_later_eq_right h
    have rest := ih fun c rest next ⟨cls', member, accepts⟩ =>
      refused c rest next ⟨cls', List.mem_cons_of_mem _ member, accepts⟩
    rw [List.map_cons, denoteChoice_cons, denote, Meaning.char_eq_of_refuses first, Reading.just,
      Reading.onFail_failed, back]
    exact rest

/-- A merged run of characters means what the run means. -/
theorem denoteChoice_merge {run : List (CharClass π)} (proper : ∀ cls ∈ run, cls.Proper)
    {reach : Location} {p : Point} (h : p.location.later reach = reach) (saved : Saved) :
    e.denoteChoice call ((CharRun.merge run).map .char) reach p saved =
      e.denoteChoice call (run.map .char) reach p saved := by
  by_cases accepted : ∃ c rest, p.ahead = c :: rest ∧ CharRun.Accepted run c
  · obtain ⟨c, rest, next, accepted⟩ := accepted
    have merged := (CharRun.accepts_merge_iff proper).mpr accepted
    rw [e.denoteChoice_chars_of_accepted next accepted,
      e.denoteChoice_chars_of_accepted next merged]
  · have refused : ∀ c rest, p.ahead = c :: rest → ¬ CharRun.Accepted run c :=
      fun c rest next yes => accepted ⟨c, rest, next, yes⟩
    have merged : ∀ c rest, p.ahead = c :: rest → ¬ CharRun.Accepted (CharRun.merge run) c :=
      fun c rest next yes => refused c rest next ((CharRun.accepts_merge_iff proper).mp yes)
    rw [e.denoteChoice_chars_of_refused refused h, e.denoteChoice_chars_of_refused merged h]

/-- The attempts of a choice, when those before them got at least as far as to `p`. -/
def attempts (call : String → Matcher π → Meaning τ) (ms : List (Matcher π)) (reach : Location) :
    Meaning τ := fun p saved =>
  e.denoteChoice call ms (p.location.later reach) p saved

theorem attempts_append {as bs cs ds : List (Matcher π)}
    (first : e.attempts call as = e.attempts call bs)
    (second : e.attempts call cs = e.attempts call ds) :
    e.attempts call (as ++ cs) = e.attempts call (bs ++ ds) := by
  funext reach p saved
  have start : p.location.later (p.location.later reach) = p.location.later reach := by
    rw [← Location.later_assoc, Location.later_self]
  have head : e.denoteChoice call as (p.location.later reach) p saved =
      e.denoteChoice call bs (p.location.later reach) p saved :=
    congrFun (congrFun (congrFun first reach) p) saved
  unfold attempts
  rw [denoteChoice_append, denoteChoice_append, head]
  -- The first part fails at `p` or behind, and from there on the second parts agree.
  refine (e.denoteChoice_failsFrom bs _ _ p saved start).onFail_congr fun further later => ?_
  have tail := congrFun (congrFun (congrFun second further) p) saved
  unfold attempts at tail
  rwa [later] at tail

/-- A choice among the alternatives of a choice tries these in its place. -/
theorem attempts_choice (below : List (Matcher π)) :
    e.attempts call below = e.attempts call [.choice below] := by
  funext reach p saved
  unfold attempts
  have start : (p.location.later reach).later p.location = p.location.later reach := by
    refine Location.later_eq_left_of_later_eq_right ?_
    rw [← Location.later_assoc, Location.later_self]
  have through := @denoteChoice_later _ _ _ e call below (p.location.later reach) p.location p
    saved
  rw [start] at through
  rw [through, denoteChoice_cons, denote]
  rfl

theorem denote_choice_eq_attempts (ms : List (Matcher π)) (p : Point) (saved : Saved) :
    e.denote call (.choice ms) p saved = e.attempts call ms p.location p saved := by
  rw [denote, attempts, Location.later_self]

theorem denote_choice_single (ahead : ∀ name m, (call name m).Ahead) (m : Matcher π) :
    e.denote call m = e.denote call (.choice [m]) := by
  funext p saved
  have first := (e.ahead_denote ahead m p saved).failsFrom
  show _ = e.denoteChoice call [m] p.location p saved
  rw [denoteChoice_cons]
  refine (Reading.onFail_just _).symm.trans (first.onFail_congr fun reach later => ?_)
  rw [denoteChoice, later]

/-! ## Optimized matchers -/

variable {known : String → Bool}

/-- A reduced choice of formed alternatives means what the choice means. -/
theorem denote_reduceChoice {ms : List (Matcher π)} (formed : ∀ m ∈ ms, m.Formed known) :
    e.denote call (.choice (Matcher.reduceChoice ms)) = e.denote call (.choice ms) := by
  have reduced : e.attempts call (Matcher.reduceChoice ms) = e.attempts call ms := by
    refine Matcher.apply_reduceChoice (F := e.attempts call) e.attempts_append
      (fun run inside => ?_) fun below _ => e.attempts_choice below
    have proper : ∀ cls ∈ run, cls.Proper := fun cls member =>
      Matcher.formed_char.mp (Matcher.formed_of_mem_alternatives formed (inside cls member))
    funext reach p saved
    refine e.denoteChoice_merge proper ?_ saved
    rw [← Location.later_assoc, Location.later_self]
  funext p saved
  rw [denote_choice_eq_attempts, denote_choice_eq_attempts, reduced]

theorem denoteSequence_congr {e' : Engine π τ} {f : Matcher π → Matcher π} {ms : List (Matcher π)}
    (same : ∀ m ∈ ms, e'.denote call (f m) = e.denote call m) :
    e'.denoteSequence call (ms.map f) = e.denoteSequence call ms := by
  induction ms with
  | nil => rfl
  | cons m ms ih =>
    obtain ⟨first, rest⟩ := List.forall_mem_cons.mp same
    funext p saved
    rw [List.map_cons, denoteSequence, denoteSequence, first, ih rest]

theorem denoteChoice_congr {e' : Engine π τ} {f : Matcher π → Matcher π} {ms : List (Matcher π)}
    (same : ∀ m ∈ ms, e'.denote call (f m) = e.denote call m) :
    e'.denoteChoice call (ms.map f) = e.denoteChoice call ms := by
  induction ms with
  | nil => rfl
  | cons m ms ih =>
    obtain ⟨first, rest⟩ := List.forall_mem_cons.mp same
    funext reach p saved
    rw [List.map_cons, denoteChoice_cons, denoteChoice_cons, first, ih rest]

/-- An optimized matcher means what the matcher means, if that is so of the definitions
of rules. -/
theorem denote_optimize (ahead : ∀ name m, (call name m).Ahead)
    (rules : ∀ name (m : Matcher π), m.Formed known → call name m.optimize = call name m)
    {m : Matcher π} (formed : m.Formed known) : e.denote call m.optimize = e.denote call m := by
  induction m with
  | choice ms ih =>
    have inner : ∀ m ∈ ms, m.Formed known := fun m hm => formed.child hm
    have optimized : ∀ m ∈ ms.map Matcher.optimize, m.Formed known :=
      List.forall_mem_map.mpr fun m hm => (inner m hm).optimize
    rw [Matcher.optimize, Matcher.optimizeAll_eq_map,
      Matcher.apply_choiceOf (e.denote_choice_single ahead), e.denote_reduceChoice optimized]
    funext p saved
    rw [denote, denote, e.denoteChoice_congr fun m hm => ih m hm (inner m hm)]
  | sequence ms ih =>
    rw [Matcher.optimize, Matcher.optimizeAll_eq_map, denote, denote]
    exact e.denoteSequence_congr fun m hm => ih m hm (formed.child hm)
  | optional m ih =>
    have once : ∀ m, e.denote call (.optional (.optional m)) = e.denote call (.optional m) := by
      intro m
      rw [denote, denote, Meaning.optional_optional]
    rw [Matcher.optimize, Matcher.apply_optionalOf once, denote, denote,
      ih (formed.child List.mem_cons_self)]
  | rule name m _ => exact rules name m (formed.child List.mem_cons_self)
  | repetition m min max ih | absent m ih | ignore m ih | join m ih | mark m ih | save name m ih =>
    rw [Matcher.optimize, denote, denote, ih (formed.child List.mem_cons_self)]
  | char cls | text t | endOfInput | ref name | load name => rfl

theorem applyRule_optimize (levels : Nat) (name : String) {m : Matcher π}
    (formed : m.Formed known) : e.applyRule levels name m.optimize = e.applyRule levels name m := by
  induction levels generalizing name m with
  | zero => rfl
  | succ levels ih =>
    rw [applyRule, applyRule,
      e.denote_optimize (e.ahead_applyRule levels) (fun name m formed => ih name formed) formed]

/-! ## Optimized tables -/

/-- Two engines whose rules mean the same give a matcher the same meaning. -/
theorem denote_congr (e e' : Engine π τ)
    (rules : ∀ name, e'.denote call (.ref name) = e.denote call (.ref name)) (m : Matcher π) :
    e'.denote call m = e.denote call m := by
  induction m with
  | ref name => exact rules name
  | sequence ms ih =>
    have same := e.denoteSequence_congr (f := id) ih
    rw [List.map_id] at same
    rw [denote, denote, same]
  | choice ms ih =>
    have same := e.denoteChoice_congr (f := id) ih
    rw [List.map_id] at same
    rw [denote, denote, same]
  | repetition m min max ih | optional m ih | absent m ih | ignore m ih | join m ih | mark m ih
  | save name m ih => rw [denote, denote, ih]
  | char cls | text t | endOfInput | rule name m | load name => rw [denote, denote]

variable {t : RuleTable π τ} {settings : Settings}

omit [CharTest π] in
theorem shape_optimized (name : String) :
    (⟨t.optimized.1, settings⟩ : Engine π τ).shape name =
      (⟨t, settings⟩ : Engine π τ).shape name := by
  have rule := t.rule?_optimized name
  funext output
  unfold shape
  generalize t.optimized.1.rule? name = after, t.rule? name = before at rule
  cases rule with
  | none => rfl
  | some same => rw [Option.bind_some, Option.bind_some, same.factory]

/-- Beside the optimized rules a matcher means what it means beside the rules. -/
theorem denote_optimized (sound : t.Sound) {call : String → Matcher π → Meaning τ}
    (rules : ∀ name (m : Matcher π), m.Formed t.nullable.holds →
      call name m.optimize = call name m) (m : Matcher π) :
    (⟨t.optimized.1, settings⟩ : Engine π τ).denote call m =
      (⟨t, settings⟩ : Engine π τ).denote call m := by
  refine denote_congr _ _ (fun name => ?_) m
  have found := t.rule?_optimized name
  rw [denote, denote]
  generalize after : t.optimized.1.rule? name = after at found
  generalize before : t.rule? name = before at found
  cases found with
  | none => rfl
  | @some r r' same =>
    have member : r ∈ t.rules := RuleTable.mem_of_rule? before
    have formed : r.definition.Formed t.nullable.holds :=
      (sound.formed r member).child List.mem_cons_self
    dsimp only
    rw [same.name, same.definition, rules r.name _ formed]

theorem applyRule_optimized (sound : t.Sound) (levels : Nat) :
    (⟨t.optimized.1, settings⟩ : Engine π τ).applyRule levels =
      (⟨t, settings⟩ : Engine π τ).applyRule levels := by
  induction levels with
  | zero => rfl
  | succ levels ih =>
    funext name m
    rw [applyRule, applyRule, ih, shape_optimized,
      denote_optimized sound fun name m formed => applyRule_optimize _ levels name formed]

end Engine

/-! ## Runs -/

/-- Two runs tell the same, up to the words and the causes of a failure that is not
fatal. -/
structure Run.Agree {τ : Type} (a b : Run τ) : Prop where
  success : a.result.success = b.result.success
  fragments : a.result.fragments = b.result.fragments
  values : a.result.values = b.result.values
  span : a.result.span = b.result.span
  matched : a.result.matched = b.result.matched
  marks : a.log.marks = b.log.marks
  reader : a.reader = b.reader
  /-- Failures are both fatal or both not, they got equally far, and fatal ones are the
  same. -/
  errors : ∀ x y, a.result.error? = some x → b.result.error? = some y →
    x.isFatal = y.isFatal ∧ x.furthest = y.furthest ∧ (x.isFatal = true → x = y)

namespace Engine

variable {π τ : Type} [CharTest π]

/-- Runs of matchers that mean the same agree. -/
theorem agree_execute {e e' : Engine π τ} {m m' : Matcher π} {reader : Reader}
    (valid : reader.Valid)
    (same : e'.denote (e'.applyRule e'.settings.maxDepth) m' =
      e.denote (e.applyRule e.settings.maxDepth) m) :
    (e.execute m reader).Agree (e'.execute m' reader) := by
  have first := e.means_step_zero m ⟨reader, [], 0⟩ ⟨valid, rfl⟩
  have second := e'.means_step_zero m' ⟨reader, [], 0⟩ ⟨valid, rfl⟩
  rw [same] at second
  unfold execute
  generalize e.step m ⟨reader, [], 0⟩ = r at first ⊢
  generalize e'.step m' ⟨reader, [], 0⟩ = r' at second ⊢
  generalize e.denote _ m _ _ = v at first second
  generalize equal : v = v' at second
  cases first with
  | matched between =>
    cases second with
    | matched between' =>
      obtain ⟨verdict, marks⟩ := Reading.mk.inj equal
      cases verdict
      exact ⟨rfl, rfl, rfl, rfl, rfl, marks, rfl, nofun⟩
    | failed | aborted => cases equal
  | failed mild left =>
    cases second with
    | failed mild' left' =>
      obtain ⟨verdict, marks⟩ := Reading.mk.inj equal
      refine ⟨rfl, rfl, rfl, rfl, rfl, marks, ?_, fun x y hx hy => ?_⟩
      · exact congrArg State.reader (left.trans left'.symm)
      · cases hx
        cases hy
        exact ⟨mild.trans mild'.symm, Verdict.failed.inj verdict, fun fatal =>
          absurd fatal (Bool.eq_false_iff.mp mild)⟩
    | matched | aborted => cases equal
  | aborted fatal left =>
    cases second with
    | aborted fatal' left' =>
      obtain ⟨verdict, marks⟩ := Reading.mk.inj equal
      cases verdict
      refine ⟨rfl, rfl, rfl, rfl, rfl, marks, ?_, fun x y hx hy => ?_⟩
      · exact congrArg State.reader (left.trans left'.symm)
      · cases hx
        cases hy
        exact ⟨rfl, rfl, fun _ => rfl⟩
    | matched | failed => cases equal

/-- A matcher that passes the check of a table passes it when it is optimized, and also
that of the optimized table. -/
theorem problem?_optimized {t : RuleTable π τ} {m : Matcher π} (checked : t.problem? m = none) :
    t.problem? m.optimize = none ∧ t.optimized.1.problem? m = none ∧
      t.optimized.1.problem? m.optimize = none := by
  have same : ∀ n : Matcher π, t.optimized.1.problem? n = none ↔ t.problem? n = none := fun n => by
    rw [RuleTable.problem?_eq_none_iff, RuleTable.problem?_eq_none_iff, RuleTable.names_optimized]
    rfl
  have optimized := RuleTable.problem?_optimize checked
  exact ⟨optimized, (same m).mpr checked, (same m.optimize).mpr optimized⟩

/-- The four runs of a checked matcher, optimized or not, beside the rules of a built
table, optimized or not, agree. -/
theorem run_optimized_agree {g : Grammar π τ} {t : RuleTable π τ} {events : List TableEvent}
    (built : g.build = .ok (t, events)) {m : Matcher π} (checked : t.problem? m = none)
    (settings : Settings) {reader : Reader} (reachable : reader.Reachable) :
    ∀ t₁ ∈ [t, t.optimized.1], ∀ t₂ ∈ [t, t.optimized.1], ∀ m₁ ∈ [m, m.optimize],
      ∀ m₂ ∈ [m, m.optimize], ∃ a b,
        Engine.run ⟨t₁, settings⟩ m₁ reader = .ok a ∧
        Engine.run ⟨t₂, settings⟩ m₂ reader = .ok b ∧ a.Agree b := by
  have sound := RuleTable.Sound.of_build built
  have formed := (RuleTable.problem?_eq_none_iff.mp checked).2
  let e : Engine π τ := ⟨t, settings⟩
  -- Whatever the choice of table and matcher, the matcher passes and means the same.
  have each : ∀ t' ∈ [t, t.optimized.1], ∀ m' ∈ [m, m.optimize], t'.problem? m' = none ∧
      Engine.denote ⟨t', settings⟩ (Engine.applyRule ⟨t', settings⟩ settings.maxDepth) m' =
        e.denote (e.applyRule settings.maxDepth) m := by
    have rules := fun name (m : Matcher π) (formed : m.Formed t.nullable.holds) =>
      applyRule_optimize e settings.maxDepth name formed
    have matcher := e.denote_optimize (e.ahead_applyRule settings.maxDepth) rules formed
    obtain ⟨alone, beside, both⟩ := problem?_optimized checked
    intro t' ht m' hm
    rcases List.mem_pair.mp ht with rfl | rfl <;> rcases List.mem_pair.mp hm with rfl | rfl
    · exact ⟨checked, rfl⟩
    · exact ⟨alone, matcher⟩
    · rw [applyRule_optimized sound, denote_optimized sound rules]
      exact ⟨beside, rfl⟩
    · rw [applyRule_optimized sound, denote_optimized sound rules]
      exact ⟨both, matcher⟩
  intro t₁ ht₁ t₂ ht₂ m₁ hm₁ m₂ hm₂
  obtain ⟨passes₁, means₁⟩ := each t₁ ht₁ m₁ hm₁
  obtain ⟨passes₂, means₂⟩ := each t₂ ht₂ m₂ hm₂
  refine ⟨Engine.execute ⟨t₁, settings⟩ m₁ reader, Engine.execute ⟨t₂, settings⟩ m₂ reader,
    ?_, ?_, agree_execute reachable.valid (means₂.trans means₁.symm)⟩
  · rw [run, passes₁]
  · rw [run, passes₂]

/-- Lists of the same item over and over, with separators in nested choices, from behind
the first character and with a save point there. -/
theorem agree_repeated_item :
    let m : Matcher Empty :=
      .choice [.char (.only 'c'), .choice [.char (.range 'a' 'b'), .ref "list"]]
    let separator : Matcher Empty := .choice [.char (.only ';'), .char (.only ':')]
    let list : Matcher Empty :=
      .sequence [.char (.only '('), .save "x" (.ref "item"),
        .repetition (.choice [.load "x", separator]) 0 (some 4), .char (.only ')')]
    let item : Matcher Empty :=
      .choice [.choice [.char (.range 'm' 'p'), .char (.only 'q')], .ref "list",
        .char (.oneOf ['a', 'b'])]
    let size : Factory Nat := fun _ fragments values => values.foldl Nat.add fragments.length
    let rules : List (Rule Empty Nat) :=
      [⟨"list", list, default, some size⟩, ⟨"item", item, default, none⟩]
    let g : Grammar Empty Nat := ⟨rules, some "list", {}⟩
    let t : RuleTable Empty Nat := ⟨rules, NullMap.compute rules, some "list", {}⟩
    let reader := ((Reader.ofText ['x', '(', 'n', 'n', ';', ':', 'n', ')']).advance 1).save
    g.build = .ok (t, [.built 2 "list" false]) ∧ t.problem? m = none ∧ reader.Reachable ∧
      ∃ a b, Engine.run ⟨t, {}⟩ m reader = .ok a ∧
        Engine.run ⟨t.optimized.1, {}⟩ m.optimize reader = .ok b ∧ a.Agree b := by
  intro m separator list item size rules g t reader
  have built : g.build = .ok (t, [.built 2 "list" false]) :=
    Grammar.build_of_problem? (by decide) rfl
  have checked : t.problem? m = none := by decide
  have reachable : reader.Reachable := .save (.advance 1 (.ofText _))
  refine ⟨built, checked, reachable, ?_⟩
  exact run_optimized_agree built checked {} reachable t List.mem_cons_self t.optimized.1
    (List.mem_cons_of_mem _ List.mem_cons_self) m List.mem_cons_self m.optimize
    (List.mem_cons_of_mem _ List.mem_cons_self)

end Engine

end Peg
