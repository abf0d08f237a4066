import Peg.Proofs.BuiltTables
import Peg.Proofs.Denotation
import Peg.Proofs.Semantics

/-!
# Matching does what matchers parse

The meanings of matchers, which matching follows, are set against the rules of `Parses`.
Each meaning gives an outcome that the rules allow (`Allowed.denote`), for every number of
rules that may still be opened (`Allowed.applyRule`). As the rules allow at most one
outcome, that is the only one (`exists_parses`).
-/

namespace Peg

/-! ## Matchers that the rules are about -/

namespace Matcher

variable {π : Type}

/-- What a run needs of a node: a class in proper form, and a rule that there is. -/
def RunnableNode (names : List String) : Matcher π → Prop
  | char cls => cls.Proper
  | ref name | rule name _ => name ∈ names
  | _ => True

abbrev Runnable (names : List String) (m : Matcher π) : Prop := m.Every (RunnableNode names)

variable {names : List String} {m : Matcher π}

theorem Runnable.node (h : m.Runnable names) : m.RunnableNode names := (every_iff.mp h).1

theorem Runnable.child {c : Matcher π} (h : m.Runnable names) (hc : c ∈ m.children) :
    c.Runnable names := (every_iff.mp h).2 c hc

/-- A checked matcher can be run. -/
theorem runnable_of_formed {known : String → Bool} (closed : m.Closed names)
    (formed : m.Formed known) : m.Runnable names := by
  intro n hn
  have node := formed n hn
  have named : ∀ name, n.ruleName? = some name → name ∈ names := fun name same =>
    closed name (List.mem_filterMap.mpr ⟨n, hn, same⟩)
  cases n with
  | char cls => exact node
  | ref name | rule name m => exact named name rfl
  | _ => exact trivial

end Matcher

/-- The body of each rule of a sound table can be run. -/
theorem RuleTable.Sound.runnable {π τ : Type} {t : RuleTable π τ} (sound : t.Sound)
    {name : String} {r : Rule π τ} (found : t.rule? name = some r) : r.body.Runnable t.names :=
  have member := RuleTable.mem_of_rule? found
  Matcher.runnable_of_formed (sound.closed r member) (sound.formed r member)

/-! ## Verdicts and outcomes -/

/-- The verdict is the outcome, up to where the failure lies. A run is over only because
more than `limit` rules are open. -/
inductive Verdict.Gives {τ : Type} (limit : Nat) : Verdict τ → Outcome τ → Prop
  | ok {output : Output τ} {last : Point} {saved : Saved} :
      Gives limit (.matched output last saved) (.ok output last.ahead saved)
  | fail {reach : Location} : Gives limit (.failed reach) .fail
  | abort {l : Location} : Gives limit (.aborted ⟨.depthLimit limit, l⟩) .abort

namespace Reading

variable {τ : Type} {limit : Nat} {r : Reading τ} {v : Outcome τ}

def Gives (limit : Nat) (r : Reading τ) (v : Outcome τ) : Prop := r.verdict.Gives limit v

theorem Gives.of_ok {output : Output τ} {rest : Text} {saved : Saved}
    (h : r.Gives limit (.ok output rest saved)) :
    ∃ last marks, last.ahead = rest ∧ r = ⟨.matched output last saved, marks⟩ := by
  obtain ⟨verdict, marks⟩ := r
  cases h with
  | @ok _ last => exact ⟨last, marks, rfl, rfl⟩

theorem Gives.of_fail (h : r.Gives limit .fail) : ∃ reach marks, r = ⟨.failed reach, marks⟩ := by
  obtain ⟨verdict, marks⟩ := r
  cases h with
  | @fail reach => exact ⟨reach, marks, rfl⟩

theorem Gives.of_abort (h : r.Gives limit .abort) :
    ∃ l marks, r = ⟨.aborted ⟨.depthLimit limit, l⟩, marks⟩ := by
  obtain ⟨verdict, marks⟩ := r
  cases h with
  | @abort l => exact ⟨l, marks, rfl⟩

theorem Gives.mapOutput (h : r.Gives limit v) (f : Output τ → Output τ) :
    (r.mapOutput f).Gives limit (v.mapOutput f) := by
  obtain ⟨verdict, marks⟩ := r
  cases h with
  | ok =>
    rw [Reading.mapOutput_matched]
    exact .ok
  | fail =>
    rw [Reading.mapOutput_failed]
    exact .fail
  | abort => exact .abort

theorem Gives.after (h : r.Gives limit v) (marks : List Mark) : (r.after marks).Gives limit v := h

end Reading

namespace Meaning

variable {τ : Type} {limit : Nat}

theorem gives_enough (reach : Location) (min : Nat) (p : Point) (saved : Saved) :
    (enough reach min p saved : Reading τ).Gives limit (.enough min p.ahead saved) := by
  unfold enough Outcome.enough
  split
  · exact .ok
  · exact .fail

theorem gives_text {s rest : Text} {p : Point} (next : p.ahead = s ++ rest) (saved : Saved) :
    (text s p saved : Reading τ).Gives limit (.ok (.fragment s) rest saved) := by
  have behind : (p.past s).ahead = rest := by simp [Point.past, next]
  rw [text, if_pos ⟨rest, next.symm⟩, ← behind]
  exact .ok

theorem gives_text_other {s : Text} {p : Point} (other : ¬ s <+: p.ahead) (saved : Saved) :
    (text s p saved : Reading τ).Gives limit .fail := by
  rw [text, if_neg other]
  exact .fail

theorem gives_char {accepts : Char → Bool} {c : Char} {rest : Text} {p : Point}
    (next : p.ahead = c :: rest) (accepted : accepts c = true) (saved : Saved) :
    (char accepts p saved : Reading τ).Gives limit (.ok (.fragment [c]) rest saved) := by
  have behind : (p.past [c]).ahead = rest := by simp [Point.past, next]
  rw [char_eq_of_accepts next accepted, ← behind]
  exact .ok

theorem gives_char_other {accepts : Char → Bool} {p : Point}
    (other : ∀ c rest, p.ahead = c :: rest → ¬ accepts c = true) (saved : Saved) :
    (char accepts p saved : Reading τ).Gives limit .fail := by
  rw [char_eq_of_refuses other]
  exact .fail

theorem gives_mark {f : Meaning τ} {p : Point} {saved : Saved} {v : Outcome τ}
    (h : (f p saved).Gives limit v) : (f.mark p saved).Gives limit v := by
  rw [mark]
  generalize f p saved = r at h ⊢
  obtain ⟨verdict, marks⟩ := r
  cases h with
  | ok => exact .ok
  | fail =>
    rw [Reading.onMatch_failed]
    exact .fail
  | abort => exact .abort

theorem gives_save (name : String) {f : Meaning τ} {p : Point} {saved : Saved} {v : Outcome τ}
    (h : (f p saved).Gives limit v) : (f.save name p saved).Gives limit (v.save name) := by
  rw [save]
  generalize f p saved = r at h ⊢
  obtain ⟨verdict, marks⟩ := r
  cases h with
  | ok => exact .ok
  | fail =>
    rw [Reading.onMatch_failed]
    exact .fail
  | abort => exact .abort

end Meaning

namespace Engine

variable {π τ : Type} {limit : Nat} (e : Engine π τ)

/-- A rule either has no factory, or the rule under its name has one. -/
theorem plain_or_made (name : String) :
    (∀ r, e.table.rule? name = some r → r.factory = none) ∨
      ∃ r make, e.table.rule? name = some r ∧ r.factory = some make := by
  cases found : e.table.rule? name with
  | none => exact .inl fun _ h => nomatch h
  | some r =>
    cases factory : r.factory with
    | none =>
      left
      intro r' same
      cases same
      exact factory
    | some make => exact .inr ⟨r, make, rfl, factory⟩

theorem shape_eq_id {name : String}
    (plain : ∀ r, e.table.rule? name = some r → r.factory = none) : e.shape name = id := by
  funext output
  unfold shape
  cases found : e.table.rule? name with
  | none => rfl
  | some r => rw [Option.bind_some, plain r found, id]

theorem shape_of_factory {name : String} {r : Rule π τ} {make : Factory τ}
    (found : e.table.rule? name = some r) (factory : r.factory = some make) :
    e.shape name = fun output =>
      ⟨output.fragments, [make name output.fragments output.values]⟩ := by
  funext output
  rw [shape, found, Option.bind_some, factory]

variable [CharTest π]

/-- A rule that may be opened gives what its matcher gives, shaped by its factory. -/
theorem gives_applyRule {levels : Nat} (name : String) {m : Matcher π} {p : Point}
    {saved : Saved} {v : Outcome τ}
    (h : (e.denote (e.applyRule levels) m p saved).Gives limit v) :
    (e.applyRule (levels + 1) name m p saved).Gives limit (v.mapOutput (e.shape name)) :=
  h.mapOutput _

end Engine

/-! ## What the meaning gives is allowed -/

variable {π τ : Type} [CharTest π] {t : RuleTable π τ}

/-- At every point the meaning gives an outcome that the rules allow of the matcher. -/
def Allowed (t : RuleTable π τ) (limit depth : Nat) (m : Matcher π) (f : Meaning τ) : Prop :=
  ∀ p saved, ∃ v, (f p saved).Gives limit v ∧ Parses t limit depth m p.ahead saved v

namespace Allowed

variable {limit depth : Nat} {m : Matcher π} {f : Meaning τ}

theorem char {cls : CharClass π} (proper : cls.Proper) :
    Allowed t limit depth (.char cls) (Meaning.char cls.accepts) := by
  intro p saved
  cases next : p.ahead with
  | nil =>
    exact ⟨_, Meaning.gives_char_other (fun _ _ h _ => nomatch next.symm.trans h) _, .char_end⟩
  | cons c rest =>
    by_cases accepted : cls.accepts c = true
    · have has := (CharClass.has_iff_accepts proper).mpr accepted
      exact ⟨_, Meaning.gives_char next accepted _, .char has⟩
    · refine ⟨_, Meaning.gives_char_other (fun x _ h => ?_) _, .char_other fun has => ?_⟩
      · cases next.symm.trans h
        exact accepted
      · exact accepted ((CharClass.has_iff_accepts proper).mp has)

theorem text (s : Text) : Allowed t limit depth (.text s) (Meaning.text s) := by
  intro p saved
  by_cases next : s <+: p.ahead
  · obtain ⟨rest, next⟩ := next
    exact ⟨_, Meaning.gives_text next.symm _, next ▸ .text⟩
  · exact ⟨_, Meaning.gives_text_other next _, .text_other next⟩

theorem endOfInput : Allowed t limit depth .endOfInput Meaning.endOfInput := by
  intro p saved
  unfold Meaning.endOfInput
  split
  · next none =>
    refine ⟨_, .ok, ?_⟩
    rw [none]
    exact .endOfInput
  · next some =>
    obtain ⟨c, rest, next⟩ := List.exists_cons_of_ne_nil some
    rw [next]
    exact ⟨_, .fail, .endOfInput_other⟩

theorem load (name : String) : Allowed t limit depth (.load name) (Meaning.load name) := by
  intro p saved
  rw [Meaning.load]
  cases found : saved.lookup name with
  | none => exact ⟨_, .fail, .load_unknown found⟩
  | some s =>
    by_cases next : s <+: p.ahead
    · obtain ⟨rest, next⟩ := next
      exact ⟨_, Meaning.gives_text next.symm _, next ▸ .load found⟩
    · exact ⟨_, Meaning.gives_text_other next _, .load_other found next⟩

theorem optional (h : Allowed t limit depth m f) :
    Allowed t limit depth (.optional m) f.optional := by
  intro p saved
  obtain ⟨v, gives, parses⟩ := h p saved
  rw [Meaning.optional]
  cases v with
  | ok output rest saved' =>
    obtain ⟨last, marks, rfl, first⟩ := gives.of_ok
    rw [first, Reading.onFail_matched]
    exact ⟨_, .ok, .optional parses⟩
  | fail =>
    obtain ⟨reach, marks, first⟩ := gives.of_fail
    rw [first, Reading.onFail_failed, Reading.after_just]
    exact ⟨_, .ok, .optional_empty parses⟩
  | abort =>
    obtain ⟨l, marks, first⟩ := gives.of_abort
    rw [first, Reading.onFail_aborted]
    exact ⟨_, .abort, .optional_abort parses⟩

theorem absent (h : Allowed t limit depth m f) : Allowed t limit depth (.absent m) f.absent := by
  intro p saved
  obtain ⟨v, gives, parses⟩ := h p saved
  rw [Meaning.absent]
  cases v with
  | ok output rest saved' =>
    obtain ⟨last, marks, rfl, first⟩ := gives.of_ok
    rw [first, Reading.resume_matched, Reading.after_just]
    exact ⟨_, .fail, .absent_present parses⟩
  | fail =>
    obtain ⟨reach, marks, first⟩ := gives.of_fail
    rw [first, Reading.resume_failed, Reading.after_just]
    exact ⟨_, .ok, .absent parses⟩
  | abort =>
    obtain ⟨l, marks, first⟩ := gives.of_abort
    rw [first, Reading.resume_aborted]
    exact ⟨_, .abort, .absent_abort parses⟩

/-- One more match of the repetition, and then as often as the bound still allows. -/
theorem iterate (h : Allowed t limit depth m f) (ahead : f.Ahead) {bound : Nat} :
    ∀ {start : Location} {min : Nat} {max : Option Nat} {p : Point} {saved : Saved},
      p.ahead.length < bound →
      ∃ v, (f.iterate start bound min max p saved).Gives limit v ∧
        Parses t limit depth (.repetition m min max) p.ahead saved v := by
  induction bound with
  | zero => exact fun short => absurd short (Nat.not_lt_zero _)
  | succ bound ih =>
    intro start min max p saved enough
    unfold Meaning.iterate
    split
    · next full =>
      rw [full]
      exact ⟨_, Meaning.gives_enough _ _ p _, .repetition_full⟩
    · next more =>
      have step := ahead p saved
      obtain ⟨v, gives, parses⟩ := h p saved
      cases v with
      | ok output rest saved' =>
        obtain ⟨last, marks, rfl, first⟩ := gives.of_ok
        rw [first] at step
        rw [first, Reading.resume_matched]
        split
        · next still =>
          rw [Reading.after_just]
          exact ⟨_, .ok, still.symm ▸ .repetition_still more (still ▸ parses)⟩
        · next moved =>
          cases step with
          | matched between =>
            have shorter := between.length_lt moved
            obtain ⟨v, rest, parses'⟩ :=
              @ih start (min - 1) (max.map (· - 1)) last saved' (by omega)
            exact ⟨_, (rest.mapOutput _).after marks, .repetition_more more parses moved parses'⟩
      | fail =>
        obtain ⟨reach, marks, first⟩ := gives.of_fail
        rw [first, Reading.resume_failed]
        exact ⟨_, (Meaning.gives_enough _ _ p _).after marks, .repetition_end more parses⟩
      | abort =>
        obtain ⟨l, marks, first⟩ := gives.of_abort
        rw [first, Reading.resume_aborted]
        exact ⟨_, .abort, .repetition_abort more parses⟩

theorem repetition (h : Allowed t limit depth m f) (ahead : f.Ahead) (min : Nat)
    (max : Option Nat) : Allowed t limit depth (.repetition m min max) (f.repetition min max) :=
  fun _ _ => h.iterate ahead (Nat.lt_succ_self _)

theorem sequence {e : Engine π τ} {call : String → Matcher π → Meaning τ}
    {ms : List (Matcher π)} (h : ∀ m ∈ ms, Allowed t limit depth m (e.denote call m)) :
    Allowed t limit depth (.sequence ms) (e.denoteSequence call ms) := by
  induction ms with
  | nil =>
    intro p saved
    rw [Engine.denoteSequence]
    exact ⟨_, .ok, .sequence_nil⟩
  | cons m ms ih =>
    intro p saved
    obtain ⟨here, later⟩ := List.forall_mem_cons.mp h
    obtain ⟨v, gives, parses⟩ := here p saved
    rw [Engine.denoteSequence_cons]
    cases v with
    | ok output rest saved' =>
      obtain ⟨last, marks, rfl, first⟩ := gives.of_ok
      obtain ⟨v, rest, parses'⟩ := ih later last saved'
      rw [first, Reading.onMatch_matched]
      exact ⟨_, (rest.mapOutput _).after marks, .sequence_cons parses parses'⟩
    | fail =>
      obtain ⟨reach, marks, first⟩ := gives.of_fail
      rw [first, Reading.onMatch_failed]
      exact ⟨_, .fail, .sequence_stop parses .fail⟩
    | abort =>
      obtain ⟨l, marks, first⟩ := gives.of_abort
      rw [first, Reading.onMatch_aborted]
      exact ⟨_, .abort, .sequence_stop parses .abort⟩

theorem choice {e : Engine π τ} {call : String → Matcher π → Meaning τ}
    {ms : List (Matcher π)} (h : ∀ m ∈ ms, Allowed t limit depth m (e.denote call m))
    (reach : Location) : Allowed t limit depth (.choice ms) (e.denoteChoice call ms reach) := by
  induction ms generalizing reach with
  | nil =>
    intro p saved
    rw [Engine.denoteChoice]
    exact ⟨_, .fail, .choice_nil⟩
  | cons m ms ih =>
    intro p saved
    obtain ⟨here, later⟩ := List.forall_mem_cons.mp h
    obtain ⟨v, gives, parses⟩ := here p saved
    rw [Engine.denoteChoice_cons]
    cases v with
    | ok output rest saved' =>
      obtain ⟨last, marks, rfl, first⟩ := gives.of_ok
      rw [first, Reading.onFail_matched]
      exact ⟨_, .ok, .choice_first parses⟩
    | fail =>
      obtain ⟨further, marks, first⟩ := gives.of_fail
      obtain ⟨v, rest, parses'⟩ := ih later (reach.later further) p saved
      rw [first, Reading.onFail_failed]
      exact ⟨_, rest.after marks, .choice_next parses parses'⟩
    | abort =>
      obtain ⟨l, marks, first⟩ := gives.of_abort
      rw [first, Reading.onFail_aborted]
      exact ⟨_, .abort, .choice_abort parses⟩

/-- What a matcher means is allowed if that is so of rules. -/
theorem denote {e : Engine π τ} (sound : e.table.Sound)
    {call : String → Matcher π → Meaning τ} (ahead : ∀ name m, (call name m).Ahead)
    (rules : ∀ name m, m.Runnable e.table.names →
      Allowed e.table limit depth (.rule name m) (call name m))
    {m : Matcher π} (runnable : m.Runnable e.table.names) :
    Allowed e.table limit depth m (e.denote call m) := by
  induction m with
  | char cls =>
    rw [Engine.denote]
    exact char runnable.node
  | text s =>
    rw [Engine.denote]
    exact text s
  | endOfInput =>
    rw [Engine.denote]
    exact endOfInput
  | sequence ms ih =>
    rw [Engine.denote]
    exact sequence fun m hm => ih m hm (runnable.child hm)
  | choice ms ih =>
    intro p saved
    rw [Engine.denote_choice]
    exact choice (fun m hm => ih m hm (runnable.child hm)) p.location p saved
  | repetition m min max ih =>
    rw [Engine.denote]
    exact (ih (runnable.child List.mem_cons_self)).repetition (e.ahead_denote ahead m) min max
  | optional m ih =>
    rw [Engine.denote]
    exact (ih (runnable.child List.mem_cons_self)).optional
  | absent m ih =>
    rw [Engine.denote]
    exact (ih (runnable.child List.mem_cons_self)).absent
  | ref name =>
    obtain ⟨r, found⟩ := RuleTable.exists_rule? runnable.node
    intro p saved
    have body := sound.runnable found
    obtain ⟨v, gives, parses⟩ := rules r.name r.definition (body.child List.mem_cons_self) p saved
    rw [e.denote_ref found]
    exact ⟨v, gives, .ref found parses⟩
  | rule name m _ =>
    rw [Engine.denote]
    exact rules name m (runnable.child List.mem_cons_self)
  | ignore m ih =>
    intro p saved
    obtain ⟨v, gives, parses⟩ := ih (runnable.child List.mem_cons_self) p saved
    rw [Engine.denote]
    exact ⟨_, gives.mapOutput _, .ignore parses⟩
  | join m ih =>
    intro p saved
    obtain ⟨v, gives, parses⟩ := ih (runnable.child List.mem_cons_self) p saved
    rw [Engine.denote]
    exact ⟨_, gives.mapOutput _, .join parses⟩
  | mark m ih =>
    intro p saved
    obtain ⟨v, gives, parses⟩ := ih (runnable.child List.mem_cons_self) p saved
    rw [Engine.denote]
    exact ⟨v, Meaning.gives_mark gives, .mark parses⟩
  | save name m ih =>
    intro p saved
    obtain ⟨v, gives, parses⟩ := ih (runnable.child List.mem_cons_self) p saved
    rw [Engine.denote]
    exact ⟨_, Meaning.gives_save name gives, .save parses⟩
  | load name =>
    rw [Engine.denote]
    exact load name

/-- What a rule means is allowed, for any number of rules that may still be opened. -/
theorem applyRule {e : Engine π τ} (sound : e.table.Sound) {levels depth : Nat}
    (size : e.settings.maxDepth - depth = levels) (name : String) {m : Matcher π}
    (runnable : m.Runnable e.table.names) :
    Allowed e.table e.settings.maxDepth depth (.rule name m) (e.applyRule levels name m) := by
  induction levels generalizing depth name m with
  | zero =>
    intro p saved
    exact ⟨.abort, .abort, .rule_limit (Nat.le_of_sub_eq_zero size)⟩
  | succ levels ih =>
    intro p saved
    have under : depth < e.settings.maxDepth := by omega
    -- In the body one rule more is open, and one less may still be opened.
    have inner := denote sound (e.ahead_applyRule levels)
      (fun name m runnable => @ih (depth + 1) (by omega) name m runnable) runnable
    obtain ⟨v, gives, parses⟩ := inner p saved
    have shaped := e.gives_applyRule name gives
    rcases e.plain_or_made name with plain | ⟨r, make, found, factory⟩
    · rw [e.shape_eq_id plain, v.mapOutput_id] at shaped
      exact ⟨_, shaped, .rule_plain under plain parses⟩
    · rw [e.shape_of_factory found factory] at shaped
      exact ⟨_, shaped, .rule_made under found factory parses⟩

end Allowed

/-- The rules allow exactly one outcome of a matcher that can be run, and that is the one
that its meaning gives. -/
theorem exists_parses (settings : Settings) (sound : t.Sound) (depth : Nat) {m : Matcher π}
    (runnable : m.Runnable t.names) (p : Point) (saved : Saved) :
    ∃ v : Outcome τ, (∀ v', Parses t settings.maxDepth depth m p.ahead saved v' ↔ v' = v) ∧
      (Engine.denote ⟨t, settings⟩ (Engine.applyRule ⟨t, settings⟩ (settings.maxDepth - depth))
        m p saved).Gives settings.maxDepth v := by
  let e : Engine π τ := ⟨t, settings⟩
  obtain ⟨v, gives, parses⟩ := Allowed.denote (e := e) sound
    (e.ahead_applyRule (settings.maxDepth - depth))
    (fun name m runnable => Allowed.applyRule sound rfl name runnable) runnable p saved
  refine ⟨v, fun v' => ⟨fun parses' => ?_, fun same => same ▸ parses⟩, gives⟩
  exact parses'.deterministic parses

end Peg
