import Peg.Match.Run
import Peg.Proofs.NullableMatches
import Peg.Proofs.ReaderStates
import Peg.Proofs.Refinement

/-!
# How many rules are open at a time

A rule that is applied without anything having been consumed ranks below the rule that
applies it. So between two characters at most as many rules are entered by name as there
are, and each brings along only the applications that are nested in its body. This bounds
the number of rules open from the number of characters consumed, and the limit on it is
never met if it allows for all the characters ahead (`Engine.run_depth`).

The bound is an invariant of where a run is over (`Meaning.EndsWithin`). It is kept by
every way of combining meanings, since a match that consumes nothing is one of a nullable
matcher, and behind it only leading rules are applied.
-/

namespace Peg

/-! ## Nested applications -/

namespace Matcher

variable {π : Type}

mutual

/-- The largest number of applications of rules nested on a path from the root of the
matcher to a leaf. -/
def nesting : Matcher π → Nat
  | rule _ m => nesting m + 1
  | sequence ms | choice ms => nestingAll ms
  | repetition m _ _ | optional m | absent m | ignore m | join m | mark m | save _ m => nesting m
  | char _ | text _ | endOfInput | ref _ | load _ => 0

/-- The largest of several matchers. -/
def nestingAll : List (Matcher π) → Nat
  | [] => 0
  | m :: ms => max (nesting m) (nestingAll ms)

end

theorem nesting_le_nestingAll {m : Matcher π} {ms : List (Matcher π)} (hm : m ∈ ms) :
    m.nesting ≤ nestingAll ms := by
  induction ms with
  | nil => exact absurd hm List.not_mem_nil
  | cons n ms ih =>
    rw [nestingAll]
    rcases List.mem_cons.mp hm with rfl | later
    · exact Nat.le_max_left _ _
    · exact Nat.le_trans (ih later) (Nat.le_max_right _ _)

example : nesting (rule "a" (choice [endOfInput, rule "b" (ref "c")]) : Matcher Empty) = 2 := by
  decide

end Matcher

/-- The largest number of applications of rules nested in the body of a rule. -/
def RuleTable.nesting {π τ : Type} (t : RuleTable π τ) : Nat :=
  Matcher.nestingAll (t.rules.map (·.body))

/-! ## Where a run is over -/

/-- How many levels are taken up by `nested` applications in place, by the rules that rank
below `rank`, and by all `rules` rules for each of `n` characters, if each rule takes
`width` levels. -/
def levelsFor (width rules nested rank n : Nat) : Nat := nested + width * (rank + rules * n)

theorem levelsFor_mono {width rules nested nested' rank rank' : Nat} (hn : nested ≤ nested')
    (hr : rank ≤ rank') (n : Nat) :
    levelsFor width rules nested rank n ≤ levelsFor width rules nested' rank' n :=
  Nat.add_le_add hn (Nat.mul_le_mul_left _ (Nat.add_le_add_right hr _))

/-- Behind a character all rules may be applied again. -/
theorem levelsFor_behind {width rules nested nested' t : Nat} (hn : nested ≤ nested')
    (moved : 0 < t) (rank n : Nat) :
    levelsFor width rules nested rules n ≤ levelsFor width rules nested' rank (t + n) := by
  have all : rules + rules * n ≤ rank + rules * (t + n) := by
    have size : rules * (n + 1) ≤ rules * (t + n) := Nat.mul_le_mul_left _ (by omega)
    rw [Nat.mul_add, Nat.mul_one] at size
    omega
  exact Nat.add_le_add hn (Nat.mul_le_mul_left _ all)

/-- The applications in a rule that ranks lower take up at most the width that is its own. -/
theorem levelsFor_lower {width rules nested rank rank' : Nat} (wide : nested ≤ width)
    (lower : rank < rank') (n : Nat) :
    levelsFor width rules nested rank n ≤ levelsFor width rules 0 rank' n := by
  have next : rank + rules * n + 1 ≤ rank' + rules * n := Nat.add_lt_add_right lower _
  calc levelsFor width rules nested rank n
      ≤ width * (rank + rules * n) + width := by
        rw [levelsFor, Nat.add_comm]
        exact Nat.add_le_add_left wide _
    _ = width * (rank + rules * n + 1) := (Nat.mul_succ _ _).symm
    _ ≤ levelsFor width rules 0 rank' n := by
        rw [levelsFor, Nat.zero_add]
        exact Nat.mul_le_mul_left _ next

/-- A matcher that is no wider than the rules takes up one width more than they do. -/
theorem levelsFor_le (rules : Nat) {width nested n n' : Nat} (hw : nested ≤ width) (hn : n' ≤ n) :
    levelsFor width rules nested rules n' ≤ width * (rules * (n + 1) + 1) := by
  have fewer : rules + rules * n' ≤ rules * (n + 1) := by
    rw [Nat.mul_succ, Nat.add_comm]
    exact Nat.add_le_add_right (Nat.mul_le_mul_left rules hn) rules
  calc levelsFor width rules nested rules n'
      ≤ width + width * (rules * (n + 1)) := Nat.add_le_add hw (Nat.mul_le_mul_left width fewer)
    _ = width * (rules * (n + 1) + 1) := by rw [Nat.mul_succ width, Nat.add_comm]

namespace Reading

variable {τ : Type} {levels : Nat} {bound bound' : Nat → Nat} {p q : Point}

/-- If the run is over, then so many characters on that `levels` are less than the bound
for them. -/
def EndsWithin (levels : Nat) (bound : Nat → Nat) (p : Point) (r : Reading τ) : Prop :=
  ∀ failure, r.verdict = .aborted failure →
    ∃ t q, p.Over t q ∧ failure.location = q.location ∧ levels < bound t.length

theorem EndsWithin.trans {r : Reading τ} (h : r.EndsWithin levels bound q) {t : Text}
    (between : p.Over t q) (le : ∀ n, bound n ≤ bound' (t.length + n)) :
    r.EndsWithin levels bound' p := by
  intro failure aborted
  obtain ⟨t', q', between', location, few⟩ := h failure aborted
  refine ⟨t ++ t', q', between.trans between', location, ?_⟩
  rw [List.length_append]
  exact Nat.lt_of_lt_of_le few (le _)

theorem EndsWithin.mono {r : Reading τ} (h : r.EndsWithin levels bound p)
    (le : ∀ n, bound n ≤ bound' n) : r.EndsWithin levels bound' p :=
  h.trans (.refl p) fun n => (Nat.zero_add n).symm ▸ le n

theorem endsWithin_matched (output : Output τ) (last : Point) (saved : Saved)
    (marks : List Mark) : EndsWithin levels bound p ⟨.matched output last saved, marks⟩ :=
  fun _ same => nomatch same

theorem endsWithin_failed (reach : Location) (marks : List Mark) :
    (⟨.failed reach, marks⟩ : Reading τ).EndsWithin levels bound p :=
  fun _ same => nomatch same

theorem EndsWithin.resume {r : Reading τ} (h : r.EndsWithin levels bound p) (ahead : r.Ahead p)
    {matched : Output τ → Point → Saved → Reading τ} {failed : Location → Reading τ}
    (hm : ∀ output last saved t, r.verdict = .matched output last saved → p.Over t last →
      (matched output last saved).EndsWithin levels bound p)
    (hf : ∀ reach, (failed reach).EndsWithin levels bound p) :
    (r.resume matched failed).EndsWithin levels bound p := by
  obtain ⟨verdict, marks⟩ := r
  cases ahead with
  | matched between => exact hm _ _ _ _ rfl between
  | failed => exact hf _
  | aborted => exact h

theorem EndsWithin.mapOutput {r : Reading τ} (h : r.EndsWithin levels bound p)
    (f : Output τ → Output τ) : (r.mapOutput f).EndsWithin levels bound p := by
  obtain ⟨verdict, marks⟩ := r
  cases verdict with
  | matched output last saved => exact endsWithin_matched _ _ _ _
  | failed reach => exact endsWithin_failed _ _
  | aborted failure => exact h

end Reading

namespace Meaning

variable {τ : Type} {levels : Nat} {bound : Nat → Nat} {f : Meaning τ}

/-- Wherever it is tried, the meaning keeps the bound. -/
def EndsWithin (levels : Nat) (bound : Nat → Nat) (f : Meaning τ) : Prop :=
  ∀ p saved, (f p saved).EndsWithin levels bound p

theorem EndsWithin.mono {bound' : Nat → Nat} (h : f.EndsWithin levels bound)
    (le : ∀ n, bound n ≤ bound' n) : f.EndsWithin levels bound' :=
  fun p saved => (h p saved).mono le

theorem endsWithin_char (accepts : Char → Bool) :
    (char accepts : Meaning τ).EndsWithin levels bound := by
  intro p saved
  unfold char
  split
  · split
    · exact Reading.endsWithin_matched _ _ _ _
    · exact Reading.endsWithin_failed _ _
  · exact Reading.endsWithin_failed _ _

theorem endsWithin_text (s : Text) : (text s : Meaning τ).EndsWithin levels bound := by
  intro p saved
  unfold text
  split
  · exact Reading.endsWithin_matched _ _ _ _
  · exact Reading.endsWithin_failed _ _

theorem endsWithin_load (name : String) : (load name : Meaning τ).EndsWithin levels bound := by
  intro p saved
  unfold load
  split
  · exact endsWithin_text _ p saved
  · exact Reading.endsWithin_failed _ _

theorem endsWithin_endOfInput : (endOfInput : Meaning τ).EndsWithin levels bound := by
  intro p saved
  unfold endOfInput
  split
  · exact Reading.endsWithin_matched _ _ _ _
  · exact Reading.endsWithin_failed _ _

theorem endsWithin_enough (reach : Location) (min : Nat) (p : Point) (saved : Saved) :
    (enough reach min p saved : Reading τ).EndsWithin levels bound p := by
  unfold enough
  split
  · exact Reading.endsWithin_matched _ _ _ _
  · exact Reading.endsWithin_failed _ _

theorem EndsWithin.optional (h : f.EndsWithin levels bound) (ahead : f.Ahead) :
    f.optional.EndsWithin levels bound := fun p saved =>
  (h p saved).resume (ahead p saved) (fun _ _ _ _ _ _ => Reading.endsWithin_matched _ _ _ _)
    fun _ => Reading.endsWithin_matched _ _ _ _

theorem EndsWithin.absent (h : f.EndsWithin levels bound) (ahead : f.Ahead) :
    f.absent.EndsWithin levels bound := fun p saved =>
  (h p saved).resume (ahead p saved) (fun _ _ _ _ _ _ => Reading.endsWithin_failed _ _)
    fun _ => Reading.endsWithin_matched _ _ _ _

theorem EndsWithin.mapOutput (h : f.EndsWithin levels bound) (g : Output τ → Output τ) :
    (mapOutput g f).EndsWithin levels bound := fun p saved => (h p saved).mapOutput g

theorem EndsWithin.mark (h : f.EndsWithin levels bound) (ahead : f.Ahead) :
    f.mark.EndsWithin levels bound := fun p saved =>
  (h p saved).resume (ahead p saved) (fun _ _ _ _ _ _ => Reading.endsWithin_matched _ _ _ _)
    fun _ => Reading.endsWithin_failed _ _

theorem EndsWithin.save (h : f.EndsWithin levels bound) (ahead : f.Ahead) (name : String) :
    (f.save name).EndsWithin levels bound := fun p saved =>
  (h p saved).resume (ahead p saved) (fun _ _ _ _ _ _ => Reading.endsWithin_matched _ _ _ _)
    fun _ => Reading.endsWithin_failed _ _

section

variable {width rules nested : Nat}

/-- The first match of a repetition may come before anything is consumed, the others come
behind a character. -/
theorem EndsWithin.iterate (ahead : f.Ahead)
    (behind : f.EndsWithin levels (levelsFor width rules nested rules)) {start : Location}
    {bound : Nat} : ∀ {rank : Nat} {min : Nat} {max : Option Nat} {p : Point} {saved : Saved},
      f.EndsWithin levels (levelsFor width rules nested rank) →
      (f.iterate start bound min max p saved).EndsWithin levels
        (levelsFor width rules nested rank) p := by
  induction bound with
  | zero => exact fun _ => endsWithin_enough _ _ _ _
  | succ bound ih =>
    intro rank min max p saved here
    unfold Meaning.iterate
    split
    · exact endsWithin_enough _ _ _ _
    · refine (here p saved).resume (ahead p saved)
        (fun output last saved' t _ between => ?_) fun _ => endsWithin_enough _ _ _ _
      split
      · exact Reading.endsWithin_matched _ _ _ _
      · next moved =>
        have shorter := between.length_lt moved
        have size := between.length_ahead
        refine (Reading.EndsWithin.mapOutput ?_ _).trans between
          (levelsFor_behind (Nat.le_refl nested) (by omega) rank)
        exact ih behind

theorem EndsWithin.repetition {rank : Nat}
    (h : f.EndsWithin levels (levelsFor width rules nested rank))
    (behind : f.EndsWithin levels (levelsFor width rules nested rules)) (ahead : f.Ahead)
    (min : Nat) (max : Option Nat) :
    (f.repetition min max).EndsWithin levels (levelsFor width rules nested rank) :=
  fun _ _ => EndsWithin.iterate ahead behind h

end

end Meaning

/-! ## Matchers and rules -/

namespace Engine

variable {π τ : Type} [CharTest π] {e : Engine π τ} {call : String → Matcher π → Meaning τ}
  {known : String → Bool} {rank : String → Nat} {levels width rules nested : Nat}

theorem endsWithin_denoteSequence {ms : List (Matcher π)}
    (ahead : ∀ m ∈ ms, (e.denote call m).Ahead)
    (moves : ∀ m ∈ ms, (e.denote call m).MovesUnless (m.isNullable known))
    (ranked : ∀ m ∈ ms, ∀ name ∈ m.leadingRefs known, rank name < rules)
    (h : ∀ m ∈ ms, ∀ k, (∀ name ∈ m.leadingRefs known, rank name < k) →
      (e.denote call m).EndsWithin levels (levelsFor width rules nested k))
    {k : Nat} (leading : ∀ name ∈ Matcher.leadingOfSequence known ms, rank name < k) :
    (e.denoteSequence call ms).EndsWithin levels (levelsFor width rules nested k) := by
  induction ms generalizing k with
  | nil => exact fun p saved => Reading.endsWithin_matched _ _ _ _
  | cons m ms ih =>
    obtain ⟨aheadFirst, ahead⟩ := List.forall_mem_cons.mp ahead
    obtain ⟨movesFirst, moves⟩ := List.forall_mem_cons.mp moves
    obtain ⟨_, ranked⟩ := List.forall_mem_cons.mp ranked
    obtain ⟨first, h⟩ := List.forall_mem_cons.mp h
    have rest {k : Nat} := @ih ahead moves ranked h k
    rw [Matcher.leadingOfSequence] at leading
    have here := first k fun name hn => leading name (List.mem_append_left _ hn)
    intro p saved
    rw [denoteSequence_cons]
    refine (here p saved).resume (aheadFirst p saved)
      (fun output last saved' t matched between => ?_) fun _ => Reading.endsWithin_failed _ _
    refine Reading.EndsWithin.mapOutput ?_ _
    -- Either the first has consumed nothing, and is nullable, or all ranks are open again.
    by_cases still : last.ahead = p.ahead
    · have nullable := movesFirst p saved output last saved' matched still
      obtain rfl := between.nil_of_ahead_eq still
      obtain rfl := between.eq_of_nil
      refine rest (fun name hn => leading name ?_) last saved'
      rw [if_pos nullable]
      exact List.mem_append_right _ hn
    · have shorter := between.length_lt still
      have size := between.length_ahead
      have all : ∀ name ∈ Matcher.leadingOfSequence known ms, rank name < rules := by
        intro name hn
        obtain ⟨n, hm, inside⟩ := Matcher.exists_of_mem_leadingOfSequence hn
        exact ranked n hm name inside
      exact (rest all last saved').trans between
        (levelsFor_behind (Nat.le_refl nested) (by omega) k)

theorem endsWithin_denoteChoice {ms : List (Matcher π)}
    (ahead : ∀ m ∈ ms, (e.denote call m).Ahead) {bound : Nat → Nat}
    (h : ∀ m ∈ ms, (e.denote call m).EndsWithin levels bound) (reach : Location) :
    (e.denoteChoice call ms reach).EndsWithin levels bound := by
  induction ms generalizing reach with
  | nil => exact fun p saved => Reading.endsWithin_failed _ _
  | cons m ms ih =>
    obtain ⟨aheadFirst, ahead⟩ := List.forall_mem_cons.mp ahead
    obtain ⟨first, h⟩ := List.forall_mem_cons.mp h
    intro p saved
    rw [denoteChoice_cons]
    exact (first p saved).resume (aheadFirst p saved)
      (fun _ _ _ _ _ _ => Reading.endsWithin_matched _ _ _ _) fun _ => ih ahead h _ p saved

/-- The ranks of the rules of a table, with a width that no body exceeds. -/
structure Ranked (t : RuleTable π τ) (rank : String → Nat) (width : Nat) : Prop where
  below : ∀ r ∈ t.rules, rank r.name < t.rules.length
  falls : ∀ r ∈ t.rules, ∀ next ∈ r.body.leadingRefs t.nullable.holds, rank next < rank r.name
  width : ∀ r ∈ t.rules, r.body.nesting ≤ width

omit [CharTest π] in
theorem Ranked.lt_of_mem_leadingRefs {t : RuleTable π τ} (ranked : Ranked t rank width)
    {m : Matcher π} (closed : m.Closed t.names) :
    ∀ name ∈ m.leadingRefs known, rank name < t.rules.length := by
  intro name hn
  obtain ⟨r, hr, rfl⟩ := List.mem_map.mp (closed name (Matcher.leadingRefs_subset m hn))
  exact ranked.below r hr

/-- A matcher whose leading rules rank below `k` keeps the bound for `k`, if the
definitions of rules do. -/
theorem endsWithin_denote (sound : e.table.Sound) (ranked : Ranked e.table rank width)
    (ahead : ∀ name m, (call name m).Ahead)
    (moves : ∀ name (m : Matcher π), m.Formed e.table.nullable.holds →
      (call name m).MovesUnless (m.isNullable e.table.nullable.holds))
    (rules : ∀ name (m : Matcher π), m.Closed e.table.names → m.Formed e.table.nullable.holds →
      ∀ k, (∀ next ∈ m.leadingRefs e.table.nullable.holds, rank next < k) →
        (call name m).EndsWithin levels
          (levelsFor width e.table.rules.length (m.nesting + 1) k))
    {m : Matcher π} (closed : m.Closed e.table.names) (formed : m.Formed e.table.nullable.holds)
    {k : Nat} (leading : ∀ next ∈ m.leadingRefs e.table.nullable.holds, rank next < k) :
    (e.denote call m).EndsWithin levels (levelsFor width e.table.rules.length m.nesting k) := by
  induction m generalizing k with
  | char cls =>
    rw [denote]
    exact Meaning.endsWithin_char _
  | text s =>
    rw [denote]
    exact Meaning.endsWithin_text s
  | endOfInput =>
    rw [denote]
    exact Meaning.endsWithin_endOfInput
  | sequence ms ih =>
    rw [denote]
    refine endsWithin_denoteSequence (fun m _ => e.ahead_denote ahead m)
      (fun m hm => movesUnless_denote sound ahead moves (formed.child hm))
      (fun m hm => ranked.lt_of_mem_leadingRefs (closed.child hm)) (fun m hm k leading => ?_)
      leading
    exact (ih m hm (closed.child hm) (formed.child hm) leading).mono
      (levelsFor_mono (Matcher.nesting_le_nestingAll hm) (Nat.le_refl k))
  | choice ms ih =>
    intro p saved
    rw [denote_choice]
    refine endsWithin_denoteChoice (fun m _ => e.ahead_denote ahead m) (fun m hm => ?_) _ p saved
    rw [Matcher.leadingRefs, Matcher.leadingOfChoice_eq_flatMap] at leading
    have inner := ih m hm (closed.child hm) (formed.child hm) fun name hn =>
      leading name (List.mem_flatMap.mpr ⟨m, hm, hn⟩)
    exact inner.mono (levelsFor_mono (Matcher.nesting_le_nestingAll hm) (Nat.le_refl k))
  | repetition m min max ih =>
    have inner {k} := @ih (closed.child List.mem_cons_self) (formed.child List.mem_cons_self) k
    rw [denote]
    exact (inner leading).repetition
      (inner (ranked.lt_of_mem_leadingRefs (closed.child List.mem_cons_self)))
      (e.ahead_denote ahead m) min max
  | optional m ih =>
    rw [denote]
    exact (ih (closed.child List.mem_cons_self) (formed.child List.mem_cons_self)
      leading).optional (e.ahead_denote ahead m)
  | absent m ih =>
    rw [denote]
    exact (ih (closed.child List.mem_cons_self) (formed.child List.mem_cons_self)
      leading).absent (e.ahead_denote ahead m)
  | ref name =>
    obtain ⟨r, found⟩ := RuleTable.exists_rule? (closed name List.mem_cons_self)
    have member := RuleTable.mem_of_rule? found
    have lower : rank r.name < k := leading r.name (by
      rw [RuleTable.name_of_rule? found]
      exact List.mem_cons_self)
    have body := rules r.name r.definition
      ((sound.closed r member).child List.mem_cons_self)
      ((sound.formed r member).child List.mem_cons_self) (rank r.name) (ranked.falls r member)
    rw [e.denote_ref found]
    exact body.mono (levelsFor_lower (ranked.width r member) lower)
  | rule name m _ =>
    rw [denote]
    exact rules name m (closed.child List.mem_cons_self) (formed.child List.mem_cons_self) k leading
  | ignore m ih | join m ih =>
    rw [denote]
    exact (ih (closed.child List.mem_cons_self) (formed.child List.mem_cons_self)
      leading).mapOutput _
  | mark m ih =>
    rw [denote]
    exact (ih (closed.child List.mem_cons_self) (formed.child List.mem_cons_self)
      leading).mark (e.ahead_denote ahead m)
  | save name m ih =>
    rw [denote]
    exact (ih (closed.child List.mem_cons_self) (formed.child List.mem_cons_self)
      leading).save (e.ahead_denote ahead m) name
  | load name =>
    rw [denote]
    exact Meaning.endsWithin_load name

theorem endsWithin_applyRule (sound : e.table.Sound) (ranked : Ranked e.table rank width)
    (levels : Nat) (name : String) {m : Matcher π} (closed : m.Closed e.table.names)
    (formed : m.Formed e.table.nullable.holds) {k : Nat}
    (leading : ∀ next ∈ m.leadingRefs e.table.nullable.holds, rank next < k) :
    (e.applyRule levels name m).EndsWithin levels
      (levelsFor width e.table.rules.length (m.nesting + 1) k) := by
  induction levels generalizing name m k with
  | zero =>
    intro p saved failure aborted
    -- No level is left, but the application would take one.
    cases aborted
    exact ⟨[], p, .refl p, rfl, Nat.lt_of_lt_of_le (Nat.succ_pos _) (Nat.le_add_right _ _)⟩
  | succ levels ih =>
    have inner := endsWithin_denote sound ranked (e.ahead_applyRule levels)
      (fun name m formed => movesUnless_applyRule sound levels name formed)
      (fun name m closed formed k leading => ih name closed formed leading) closed formed leading
    intro p saved failure aborted
    obtain ⟨t, q, between, location, few⟩ :=
      (inner.mapOutput (e.shape name)) p saved failure aborted
    refine ⟨t, q, between, location, ?_⟩
    unfold levelsFor at few ⊢
    omega

/-! ## Runs -/

omit [CharTest π] in
/-- The rules of a sound table are ranked, and no body is wider than the table. -/
theorem exists_ranked {t : RuleTable π τ} (sound : t.Sound) (m : Matcher π) :
    ∃ rank, Ranked t rank (max m.nesting t.nesting) := by
  obtain ⟨rank, below, falls⟩ := sound.ranked
  refine ⟨rank, below, falls, fun r hr => ?_⟩
  have wide : r.body.nesting ≤ t.nesting :=
    Matcher.nesting_le_nestingAll (List.mem_map_of_mem hr)
  exact Nat.le_trans wide (Nat.le_max_right _ _)

/-- If the limit allows for `n` characters, a run that meets it has consumed more. -/
theorem consumed_of_depthLimit (sound : e.table.Sound) {m : Matcher π}
    (checked : e.table.problem? m = none) {reader : Reader} (valid : reader.Valid) {n : Nat}
    (enough : max m.nesting e.table.nesting * (e.table.rules.length * (n + 1) + 1) ≤
      e.settings.maxDepth)
    {error : MatchError} (failed : (e.execute m reader).result.error? = some error)
    {limit : Nat} (kind : error.top.kind = .depthLimit limit) :
    ∃ front rest, reader.remaining = front ++ rest ∧
      error.top.location = reader.location.advanceOver front ∧ n < front.length := by
  obtain ⟨closed, formed⟩ := RuleTable.problem?_eq_none_iff.mp checked
  obtain ⟨rank, ranked⟩ := exists_ranked sound m
  have within := endsWithin_denote sound ranked (e.ahead_applyRule e.settings.maxDepth)
    (fun name m formed => movesUnless_applyRule sound _ name formed)
    (fun name m closed formed k leading => endsWithin_applyRule sound ranked _ name closed
      formed leading)
    closed formed (ranked.lt_of_mem_leadingRefs closed) (State.point ⟨reader, [], 0⟩) []
  have follows := e.means_step_zero m ⟨reader, [], 0⟩ ⟨valid, rfl⟩
  unfold execute at failed
  generalize e.step m ⟨reader, [], 0⟩ = r at failed follows
  generalize e.denote (e.applyRule e.settings.maxDepth) m (State.point ⟨reader, [], 0⟩) [] = v
    at within follows
  cases follows with
  | matched => cases failed
  | failed mild =>
    cases failed
    rw [MatchError.isFatal, kind] at mild
    cases mild
  | aborted =>
    cases failed
    obtain ⟨front, q, between, location, few⟩ := within _ rfl
    refine ⟨front, q.ahead, between.1, location.trans between.2, ?_⟩
    -- Within `n` characters the rules that can be open at a time are within the limit.
    by_contra short
    have bound := levelsFor_le e.table.rules.length
      (Nat.le_max_left m.nesting e.table.nesting) (Nat.not_lt.mp short)
    exact absurd few (Nat.not_lt.mpr (Nat.le_trans bound enough))

/-- A run of a checked matcher beside the rules of a built table never meets the limit on
open rules, if that allows for all characters ahead. If it allows for `n` characters, the
run only meets it behind more than `n`; in particular not before it has consumed any. -/
theorem run_depth {g : Grammar π τ} {t : RuleTable π τ} {events : List TableEvent}
    (built : g.build = .ok (t, events)) {m : Matcher π} (checked : t.problem? m = none)
    (settings : Settings) {reader : Reader} (reachable : reader.Reachable) :
    ∃ r, Engine.run ⟨t, settings⟩ m reader = .ok r ∧
      (max m.nesting t.nesting * (t.rules.length * (reader.remaining.length + 1) + 1) ≤
          settings.maxDepth →
        ∀ error, r.result.error? = some error → ∀ limit, error.top.kind ≠ .depthLimit limit) ∧
      ∀ n, max m.nesting t.nesting * (t.rules.length * (n + 1) + 1) ≤ settings.maxDepth →
        ∀ error, r.result.error? = some error → ∀ limit, error.top.kind = .depthLimit limit →
          ∃ front rest, reader.remaining = front ++ rest ∧
            error.top.location = reader.location.advanceOver front ∧ n < front.length := by
  let e : Engine π τ := ⟨t, settings⟩
  have sound := RuleTable.Sound.of_build built
  refine ⟨e.execute m reader, run_eq_execute checked, fun enough error failed limit kind => ?_,
    fun n enough error failed limit kind => ?_⟩
  · obtain ⟨front, rest, ahead, _, far⟩ :=
      consumed_of_depthLimit (e := e) sound checked reachable.valid enough failed kind
    rw [ahead, List.length_append] at far
    omega
  · exact consumed_of_depthLimit (e := e) sound checked reachable.valid enough failed kind

/-- Sums in parentheses, with a matcher that nests two applications of its own. The limit
is just what the bound asks for the six characters behind the first. -/
theorem depth_nested_sums :
    let digit : Matcher Empty := .char (.range '0' '9')
    let sum : Matcher Empty :=
      .sequence [.optional (.char (.only '-')), .ref "atom",
        .repetition (.sequence [.char (.only '+'), .ref "atom"]) 0 none]
    let atom : Matcher Empty :=
      .choice [digit, .sequence [.char (.only '('), .ref "sum", .char (.only ')')]]
    let m : Matcher Empty := .rule "sum" (.sequence [.rule "atom" sum, .endOfInput])
    let rules : List (Rule Empty Nat) :=
      [⟨"sum", sum, default, none⟩, ⟨"atom", atom, default, none⟩]
    let g : Grammar Empty Nat := ⟨rules, some "sum", {}⟩
    let t : RuleTable Empty Nat := ⟨rules, NullMap.compute rules, some "sum", {}⟩
    let reader := (Reader.ofText [' ', '(', '-', '(', '1', ')', ')']).advance 1
    g.build = .ok (t, [.built 2 "sum" false]) ∧ t.problem? m = none ∧ reader.Reachable ∧
      max m.nesting t.nesting * (t.rules.length * (reader.remaining.length + 1) + 1) = 30 ∧
      ∃ r, Engine.run ⟨t, ⟨30, false, false⟩⟩ m reader = .ok r ∧
        ∀ error, r.result.error? = some error → ∀ limit, error.top.kind ≠ .depthLimit limit := by
  intro digit sum atom m rules g t reader
  have built : g.build = .ok (t, [.built 2 "sum" false]) :=
    Grammar.build_of_problem? (by decide) rfl
  have checked : t.problem? m = none := by decide
  have reachable : reader.Reachable := .advance 1 (.ofText _)
  have enough : max m.nesting t.nesting *
      (t.rules.length * (reader.remaining.length + 1) + 1) = 30 := by decide
  obtain ⟨r, ran, never, _⟩ := run_depth built checked ⟨30, false, false⟩ reachable
  exact ⟨built, checked, reachable, enough, r, ran, never (Nat.le_of_eq enough)⟩

end Engine

end Peg
