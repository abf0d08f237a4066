import Mathlib.Data.List.Perm.Basic
import Peg.Match.Run
import Peg.Proofs.ValidGrammars

/-!
# The order of the rules

Two grammars with the same rules in different orders are built or refused together, and
beside the tables that they are built to every matcher is told the same and every run goes
the same way (`Engine.run_reordered`).

The tables are not equal: the rules stand in different orders, so do the nullable ones, and
what is shared by optimized rules depends on which of them was optimized first. But a match
asks a table for rules by their names and for nothing else, and the answers are alike
(`RuleTable.Alike`). That they are follows from what the checks establish: names are distinct,
and which rules are nullable follows from the rules in whatever order.
-/

namespace Peg

/-! ## Tables that answer alike -/

/-- The second rule is the first one, up to its labels. -/
structure Rule.Alike {π τ : Type} (r r' : Rule π τ) : Prop where
  name : r'.name = r.name
  definition : r'.definition = r.definition
  factory : r'.factory = r.factory

/-- What is asked of a table by name, both answer alike. -/
structure RuleTable.Alike {π τ : Type} (t t' : RuleTable π τ) : Prop where
  rule : ∀ name, Option.Rel Rule.Alike (t.rule? name) (t'.rule? name)
  nullable : t'.nullable.holds = t.nullable.holds
  root : t'.root = t.root
  settings : t'.settings = t.settings

namespace RuleTable

variable {π τ : Type} {t t' : RuleTable π τ}

theorem Alike.contains (alike : t.Alike t') : t'.contains = t.contains := by
  funext name
  have rule := alike.rule name
  unfold RuleTable.contains
  generalize t.rule? name = found, t'.rule? name = found' at rule
  cases rule with
  | none | some _ => rfl

theorem Alike.isNullable (alike : t.Alike t') (m : Matcher π) :
    t'.isNullable m = t.isNullable m := by
  rw [RuleTable.isNullable, RuleTable.isNullable, alike.nullable]

theorem Alike.problem? [CharTest π] (alike : t.Alike t') (m : Matcher π) :
    t'.problem? m = t.problem? m := by
  rw [RuleTable.problem?, RuleTable.problem?, alike.contains, alike.nullable]

theorem Alike.rootRule? (alike : t.Alike t') :
    Option.Rel Rule.Alike t.rootRule? t'.rootRule? := by
  unfold RuleTable.rootRule?
  rw [alike.root]
  cases t.root with
  | none => exact .none
  | some root => exact alike.rule root

/-- Rules that are alike have optimized forms that are alike. -/
theorem Alike.optimized (alike : t.Alike t') : t.optimized.1.Alike t'.optimized.1 where
  rule name := by
    have rule := alike.rule name
    have left := t.rule?_optimized name
    have right := t'.rule?_optimized name
    generalize t.rule? name = found, t'.rule? name = found' at rule left right
    generalize t.optimized.1.rule? name = after, t'.optimized.1.rule? name = after' at left right ⊢
    cases rule with
    | none =>
      cases left
      cases right
      exact .none
    | some same =>
      cases left with
      | some left =>
        cases right with
        | some right =>
          refine .some ⟨?_, ?_, ?_⟩
          · rw [right.name, same.name, left.name]
          · rw [right.definition, same.definition, left.definition]
          · rw [right.factory, same.factory, left.factory]
  nullable := alike.nullable
  root := alike.root
  settings := by
    have same : { t'.settings with optimize := true } = { t.settings with optimize := true } := by
      rw [alike.settings]
    exact same

/-- If names are distinct, a rule is found by its name. -/
theorem rule?_eq_some_iff (distinct : t.names.Nodup) {name : String} {r : Rule π τ} :
    t.rule? name = some r ↔ r ∈ t.rules ∧ r.name = name := by
  constructor
  · exact fun found => ⟨mem_of_rule? found, name_of_rule? found⟩
  · rintro ⟨member, rfl⟩
    obtain ⟨r', found⟩ := exists_rule? (t := t) (List.mem_map_of_mem member)
    rw [found, List.inj_on_of_nodup_map distinct (mem_of_rule? found) member (name_of_rule? found)]

end RuleTable

/-! ## Runs beside tables that answer alike -/

namespace Engine

variable {π τ : Type} {t t' : RuleTable π τ} (alike : t.Alike t') (settings : Settings)
include alike

theorem shape_alike (name : String) :
    (⟨t', settings⟩ : Engine π τ).shape name = (⟨t, settings⟩ : Engine π τ).shape name := by
  have rule := alike.rule name
  funext output
  unfold shape
  generalize t.rule? name = found, t'.rule? name = found' at rule
  cases rule with
  | none => rfl
  | some same => rw [Option.bind_some, Option.bind_some, same.factory]

variable [CharTest π]

omit alike in
theorem evalSequence_congr {e e' : Engine π τ} {enter : String → Matcher π → Step τ}
    {ms : List (Matcher π)} (same : ∀ m ∈ ms, e'.eval enter m = e.eval enter m) :
    e'.evalSequence enter ms = e.evalSequence enter ms := by
  induction ms with
  | nil => rfl
  | cons m ms ih =>
    obtain ⟨first, rest⟩ := List.forall_mem_cons.mp same
    unfold evalSequence
    rw [first, ih rest]

omit alike in
theorem evalChoice_congr {e e' : Engine π τ} {enter : String → Matcher π → Step τ}
    {ms : List (Matcher π)} (same : ∀ m ∈ ms, e'.eval enter m = e.eval enter m)
    (origin : State) (best : Option MatchError) :
    e'.evalChoice enter origin best ms = e.evalChoice enter origin best ms := by
  induction ms generalizing best with
  | nil => rfl
  | cons m ms ih =>
    obtain ⟨first, rest⟩ := List.forall_mem_cons.mp same
    unfold evalChoice
    rw [first, funext (ih rest)]

/-- The tree of a matcher is followed alike; only at references a table is asked. -/
theorem eval_alike (enter : String → Matcher π → Step τ) (m : Matcher π) :
    (⟨t', settings⟩ : Engine π τ).eval enter m = (⟨t, settings⟩ : Engine π τ).eval enter m := by
  induction m with
  | sequence ms ih =>
    unfold eval
    rw [evalSequence_congr ih]
  | choice ms ih =>
    unfold eval
    funext s
    rw [evalChoice_congr ih]
  | repetition m min max ih | optional m ih | absent m ih | ignore m ih | join m ih | mark m ih
  | save name m ih =>
    unfold eval
    rw [ih]
  | ref name =>
    have rule := alike.rule name
    unfold eval
    dsimp only
    generalize t.rule? name = found, t'.rule? name = found' at rule
    cases rule with
    | none => rfl
    | some same =>
      dsimp only
      rw [same.name, same.definition]
  | char cls | text s | endOfInput | rule name m | load name =>
    unfold eval
    rfl

theorem enter_alike (levels : Nat) :
    (⟨t', settings⟩ : Engine π τ).enter levels = (⟨t, settings⟩ : Engine π τ).enter levels := by
  induction levels with
  | zero => rfl
  | succ levels ih =>
    funext name m s
    unfold enter
    rw [ih, eval_alike alike, shape_alike alike]
    rfl

theorem step_alike (m : Matcher π) :
    (⟨t', settings⟩ : Engine π τ).step m = (⟨t, settings⟩ : Engine π τ).step m := by
  funext s
  unfold step
  rw [enter_alike alike, eval_alike alike]

theorem execute_alike (m : Matcher π) (reader : Reader) :
    (⟨t', settings⟩ : Engine π τ).execute m reader =
      (⟨t, settings⟩ : Engine π τ).execute m reader := by
  unfold execute
  rw [step_alike alike]

theorem run_alike (m : Matcher π) (reader : Reader) :
    (⟨t', settings⟩ : Engine π τ).run m reader = (⟨t, settings⟩ : Engine π τ).run m reader := by
  unfold run
  dsimp only
  rw [alike.problem?, execute_alike alike]

/-- A rule that is looked up in both tables runs alike. -/
theorem execute_rule_alike {r r' : Rule π τ} (same : r.Alike r') (reader : Reader) :
    (⟨t', settings⟩ : Engine π τ).execute r'.body reader =
      (⟨t, settings⟩ : Engine π τ).execute r.body reader := by
  rw [Rule.body, Rule.body, same.name, same.definition, execute_alike alike]

theorem runRule_alike (name : String) (reader : Reader) :
    (⟨t', settings⟩ : Engine π τ).runRule name reader =
      (⟨t, settings⟩ : Engine π τ).runRule name reader := by
  have rule := alike.rule name
  unfold runRule
  dsimp only
  generalize t.rule? name = found, t'.rule? name = found' at rule
  cases rule with
  | none => rfl
  | some same => exact congrArg Except.ok (execute_rule_alike alike settings same reader)

theorem runRoot_alike (reader : Reader) :
    (⟨t', settings⟩ : Engine π τ).runRoot reader = (⟨t, settings⟩ : Engine π τ).runRoot reader := by
  have rule := alike.rootRule?
  unfold runRoot
  dsimp only
  generalize t.rootRule? = found, t'.rootRule? = found' at rule
  cases rule with
  | none => rfl
  | some same => exact congrArg Except.ok (execute_rule_alike alike settings same reader)

end Engine

/-! ## Rules in another order -/

namespace Grammar

variable {π τ : Type} {g g' : Grammar π τ}

/-- The table of the rules as they were given. -/
def table (g : Grammar π τ) : RuleTable π τ :=
  ⟨g.rules, NullMap.compute g.rules, g.root, g.settings⟩

/-- The second grammar has the rules of the first one in any order. -/
structure Reorders (g g' : Grammar π τ) : Prop where
  rules : g'.rules.Perm g.rules
  root : g'.root = g.root
  settings : g'.settings = g.settings

theorem Reorders.symm (h : g.Reorders g') : g'.Reorders g :=
  ⟨h.rules.symm, h.root.symm, h.settings.symm⟩

theorem Reorders.names (h : g.Reorders g') : g'.names.Perm g.names := h.rules.map _

theorem Reorders.leads (h : g.Reorders g') {name next : String} (leads : g'.Leads name next) :
    g.Leads name next := by
  obtain ⟨r, member, same, first⟩ := leads
  exact ⟨r, h.rules.mem_iff.mp member, same, first.of_subset h.rules.subset⟩

theorem Reorders.properNode (h : g.Reorders g') {m : Matcher π} (proper : m.ProperNode g.rules) :
    m.ProperNode g'.rules := by
  cases m with
  | repetition m min max =>
    cases max with
    | none => exact fun nullable => proper (nullable.of_subset h.rules.subset)
    | some max => exact proper
  | char | text | endOfInput | sequence | choice | optional | absent | ref | rule | ignore | join
  | mark | save | load => exact proper

/-- What a check asks does not depend on the order of the rules. -/
theorem Reorders.meets (h : g.Reorders g') {check : Check} (meets : g.Meets check) :
    g'.Meets check := by
  have known {name : String} : name ∈ g'.names ↔ name ∈ g.names := h.names.mem_iff
  cases check with
  | names => exact ⟨fun empty => meets.1 (known.mp empty), h.names.nodup_iff.mpr meets.2⟩
  | root => exact fun name given => known.mpr (meets name (h.root ▸ given))
  | references =>
    exact fun r member name named =>
      known.mpr (meets r (h.rules.mem_iff.mp member) name named)
  | form =>
    exact fun r member n inside =>
      h.properNode (meets r (h.rules.mem_iff.mp member) n inside)
  | recursion =>
    exact fun name around =>
      meets name (Relation.TransGen.mono (fun _ _ => h.leads) name name around)

theorem Reorders.problem?_eq_none [CharTest π] (h : g.Reorders g') (clean : g.problem? = none) :
    g'.problem? = none :=
  problem?_eq_none_iff.mpr fun check => h.meets (problem?_eq_none_iff.mp clean check)

theorem Reorders.holds (h : g.Reorders g') :
    (NullMap.compute g'.rules).holds = (NullMap.compute g.rules).holds := by
  funext name
  rw [Bool.eq_iff_iff, NullMap.holds_compute_iff, NullMap.holds_compute_iff]
  exact ⟨.of_subset h.rules.subset, .of_subset h.rules.symm.subset⟩

theorem Reorders.alike (h : g.Reorders g') (distinct : g.names.Nodup) :
    g.table.Alike g'.table where
  rule name := by
    have same : g'.table.rule? name = g.table.rule? name := by
      ext r
      rw [RuleTable.rule?_eq_some_iff (t := g'.table) (h.names.nodup_iff.mpr distinct),
        RuleTable.rule?_eq_some_iff (t := g.table) distinct]
      exact and_congr_left' h.rules.mem_iff
    rw [same]
    cases g.table.rule? name with
    | none => exact .none
    | some r => exact .some ⟨rfl, rfl, rfl⟩
  nullable := h.holds
  root := h.root
  settings := h.settings

theorem table_of_build [CharTest π] {t : RuleTable π τ} {events : List TableEvent}
    (built : g.build = .ok (t, events)) :
    t = if g.settings.optimize then g.table.optimized.1 else g.table := by
  unfold build at built
  split at built
  · cases built
  · split at built
    · next optimize =>
      cases built
      rw [if_pos optimize]
      rfl
    · next plain =>
      cases built
      rw [if_neg plain]
      rfl

/-- What is built of rules in different orders answers alike. -/
theorem Reorders.alike_of_build [CharTest π] (h : g.Reorders g') {t t' : RuleTable π τ}
    {events events' : List TableEvent} (built : g.build = .ok (t, events))
    (built' : g'.build = .ok (t', events')) : t.Alike t' := by
  have meets := problem?_eq_none_iff.mp (holds_of_build built).1 .names
  have alike := h.alike meets.2
  rw [table_of_build built, table_of_build built', h.settings]
  split
  · exact alike.optimized
  · exact alike

end Grammar

namespace Engine

variable {π τ : Type} [CharTest π]

/-- The order of the rules decides neither whether a grammar is built nor what is told of a
matcher beside the table or how any run goes. -/
theorem run_reordered {g : Grammar π τ} {rules : List (Rule π τ)} (perm : rules.Perm g.rules) :
    ((∃ t events, g.build = .ok (t, events)) ↔
      ∃ t events, { g with rules }.build = .ok (t, events)) ∧
    ∀ t events t' events', g.build = .ok (t, events) →
      { g with rules }.build = .ok (t', events') →
      (∀ m, t'.isNullable m = t.isNullable m ∧ t'.problem? m = t.problem? m) ∧
      t'.settings = t.settings ∧
      ∀ settings reader,
        (∀ m, Engine.run ⟨t', settings⟩ m reader = Engine.run ⟨t, settings⟩ m reader) ∧
        (∀ name,
          Engine.runRule ⟨t', settings⟩ name reader = Engine.runRule ⟨t, settings⟩ name reader) ∧
        Engine.runRoot ⟨t', settings⟩ reader = Engine.runRoot ⟨t, settings⟩ reader := by
  have reorders : g.Reorders { g with rules } := ⟨perm, rfl, rfl⟩
  refine ⟨⟨?_, ?_⟩, fun t events t' events' built built' => ?_⟩
  · rintro ⟨t, events, built⟩
    exact Grammar.exists_build (reorders.problem?_eq_none (Grammar.holds_of_build built).1)
  · rintro ⟨t, events, built⟩
    exact Grammar.exists_build (reorders.symm.problem?_eq_none (Grammar.holds_of_build built).1)
  · have alike := reorders.alike_of_build built built'
    refine ⟨fun m => ⟨alike.isNullable m, alike.problem? m⟩, alike.settings,
      fun settings reader => ⟨fun m => ?_, fun name => ?_, ?_⟩⟩
    · exact run_alike alike settings m reader
    · exact runRule_alike alike settings name reader
    · exact runRoot_alike alike settings reader

/-- That gaps are nullable is found in the second sweep if blanks come behind them, and in the
first one otherwise. -/
theorem reordered_spaced_sum :
    let sum : Matcher Empty :=
      .sequence [.ref "gap", .mark (.ref "digit"),
        .optional (.sequence [.char (.only '+'), .ref "sum"])]
    let gap : Matcher Empty := .sequence [.ref "blank", .optional (.char (.only '_'))]
    let rules : List (Rule Empty Nat) :=
      [⟨"sum", sum, default, none⟩, ⟨"gap", gap, default, none⟩,
        ⟨"blank", .repetition (.char (.only ' ')) 0 none, default, none⟩,
        ⟨"digit", .char (.range '0' '9'), default, none⟩]
    let g : Grammar Empty Nat := ⟨rules, some "sum", {}⟩
    let g' : Grammar Empty Nat := { g with rules := rules.reverse }
    let m : Matcher Empty := .repetition (.sequence [.ref "gap", .ref "blank"]) 1 none
    let reader := Reader.ofText [' ', '1', '+', '_', '2']
    g'.rules.Perm g.rules ∧
      g.build = .ok (g.table, [.built 4 "sum" false]) ∧
      g'.build = .ok (g'.table, [.built 4 "sum" false]) ∧
      g.table.nullable = [("sum", false), ("gap", true), ("blank", true), ("digit", false)] ∧
      g'.table.nullable = [("digit", false), ("blank", true), ("gap", true), ("sum", false)] ∧
      g'.table.problem? m = some (.malformed none (.endlessLoop "(gap blank)+")) ∧
      Engine.runRoot ⟨g'.table, {}⟩ reader = Engine.runRoot ⟨g.table, {}⟩ reader ∧
      (Engine.runRoot ⟨g'.table, {}⟩ reader).toOption.map (·.log.marks.map (·.fragments)) =
        some [[['1']], [['2']]] := by
  intro sum gap rules g g' m reader
  have perm : g'.rules.Perm g.rules := List.reverse_perm rules
  have built : g.build = .ok (g.table, [.built 4 "sum" false]) :=
    Grammar.build_of_problem? (by decide) rfl
  have built' : g'.build = .ok (g'.table, [.built 4 "sum" false]) :=
    Grammar.build_of_problem? (by decide) rfl
  obtain ⟨told, _, runs⟩ := (run_reordered perm).2 g.table _ g'.table _ built built'
  have refused : g.table.problem? m = some (.malformed none (.endlessLoop "(gap blank)+")) := by
    decide
  obtain ⟨_, _, root⟩ := runs {} reader
  refine ⟨perm, built, built', by decide, by decide, (told m).2.trans refused, root, ?_⟩
  rw [root]
  decide +kernel

end Engine

end Peg
