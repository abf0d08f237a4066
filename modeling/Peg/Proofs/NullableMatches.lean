import Peg.Proofs.BuiltTables
import Peg.Proofs.Denotation

/-!
# Matches that consume nothing

What is said of a matcher before any run, that it is not nullable, is true of every match:
a formed matcher that matches without consuming anything is nullable
(`Engine.movesUnless_denote`). Of rules this holds for any number of rules that may still
be opened (`Engine.movesUnless_applyRule`), since it is settled which rules are nullable.
-/

namespace Peg

theorem Reading.matched_of_mapOutput {τ : Type} {r : Reading τ} {g : Output τ → Output τ}
    {output : Output τ} {last : Point} {saved : Saved}
    (h : (r.mapOutput g).verdict = .matched output last saved) :
    ∃ output', r.verdict = .matched output' last saved := by
  obtain ⟨verdict, marks⟩ := r
  cases verdict with
  | matched output' last' saved' =>
    rw [Reading.mapOutput_matched] at h
    cases h
    exact ⟨output', rfl⟩
  | failed | aborted => cases h

namespace Meaning

variable {τ : Type}

/-- A match consumes something, unless `nullable` holds. -/
def MovesUnless (nullable : Bool) (f : Meaning τ) : Prop :=
  ∀ p saved output last saved', (f p saved).verdict = .matched output last saved' →
    last.ahead = p.ahead → nullable = true

variable {nullable : Bool} {f : Meaning τ}

theorem movesUnless_true (f : Meaning τ) : f.MovesUnless true := fun _ _ _ _ _ _ _ => rfl

theorem movesUnless_char (accepts : Char → Bool) :
    (char accepts : Meaning τ).MovesUnless false := by
  intro p saved output last saved' matched still
  unfold char at matched
  split at matched
  · next c rest next =>
    split at matched
    · cases matched
      rw [next] at still
      exact absurd (congrArg List.length still) (by simp [Point.past, next])
    · cases matched
  · cases matched

theorem movesUnless_text {s : Text} (some : s ≠ []) :
    (text s : Meaning τ).MovesUnless false := by
  intro p saved output last saved' matched still
  unfold text at matched
  split at matched
  · next next =>
    cases matched
    exact absurd ((Point.over_past next).nil_of_ahead_eq still) some
  · cases matched

/-- Operations that keep where a match ends. -/
theorem MovesUnless.onMatch (h : f.MovesUnless nullable)
    {g : Point → Output τ → Point → Saved → Reading τ}
    (keeps : ∀ p output last saved output' last' saved',
      (g p output last saved).verdict = .matched output' last' saved' → last' = last) :
    MovesUnless nullable fun p saved => (f p saved).onMatch (g p) := by
  intro p saved output last saved' matched still
  have inner := h p saved
  dsimp only at matched
  generalize f p saved = r at matched inner
  obtain ⟨verdict, marks⟩ := r
  cases verdict with
  | matched output₀ last₀ saved₀ =>
    have same := keeps p output₀ last₀ saved₀ output last saved' matched
    exact inner _ _ _ rfl (same ▸ still)
  | failed | aborted => cases matched

theorem MovesUnless.mapOutput (h : f.MovesUnless nullable) (g : Output τ → Output τ) :
    (mapOutput g f).MovesUnless nullable := by
  refine h.onMatch fun p output last saved output' last' saved' same => ?_
  cases same
  rfl

theorem MovesUnless.mark (h : f.MovesUnless nullable) : f.mark.MovesUnless nullable := by
  refine h.onMatch fun p output last saved output' last' saved' same => ?_
  cases same
  rfl

theorem MovesUnless.save (h : f.MovesUnless nullable) (name : String) :
    (f.save name).MovesUnless nullable := by
  refine h.onMatch fun p output last saved output' last' saved' same => ?_
  cases same
  rfl

theorem eq_of_matched_enough {reach : Location} {min : Nat} {p last : Point}
    {saved saved' : Saved} {output : Output τ}
    (h : (enough reach min p saved).verdict = .matched output last saved') :
    min = 0 ∧ last = p := by
  unfold enough at h
  split at h
  · next none =>
    cases h
    exact ⟨none, rfl⟩
  · cases h

/-- A repetition ends behind where it goes on, wherever it began. -/
theorem over_of_iterate (ahead : f.Ahead) {start : Location} {bound : Nat} :
    ∀ {min : Nat} {max : Option Nat} {p last : Point} {saved saved' : Saved} {output : Output τ},
      (iterate f start bound min max p saved).verdict = .matched output last saved' →
      ∃ t, p.Over t last := by
  induction bound with
  | zero =>
    intro min max p last saved saved' output matched
    obtain ⟨_, rfl⟩ := eq_of_matched_enough matched
    exact ⟨[], .refl last⟩
  | succ bound ih =>
    intro min max p last saved saved' output matched
    have step := ahead p saved
    unfold iterate at matched
    split at matched
    · obtain ⟨_, rfl⟩ := eq_of_matched_enough matched
      exact ⟨[], .refl last⟩
    · generalize f p saved = r at matched step
      obtain ⟨verdict, marks⟩ := r
      cases step with
      | @matched output₀ last₀ saved₀ t between =>
        rw [Reading.resume_matched] at matched
        split at matched
        · cases matched
          exact ⟨t, between⟩
        · obtain ⟨output', rest⟩ := Reading.matched_of_mapOutput matched
          obtain ⟨t', between'⟩ := ih rest
          exact ⟨t ++ t', between.trans between'⟩
      | failed =>
        obtain ⟨_, rfl⟩ := eq_of_matched_enough matched
        exact ⟨[], .refl last⟩
      | aborted => cases matched

/-- A repetition that matches nothing wants nothing, or has matched nothing once. -/
theorem MovesUnless.repetition (h : f.MovesUnless nullable) (ahead : f.Ahead) (min : Nat)
    (max : Option Nat) : (f.repetition min max).MovesUnless (min == 0 || nullable) := by
  intro p saved output last saved' matched still
  have step := ahead p saved
  have inner := h p saved
  rw [Bool.or_eq_true, beq_iff_eq]
  unfold Meaning.repetition iterate at matched
  split at matched
  · exact .inl (eq_of_matched_enough matched).1
  · generalize f p saved = r at matched step inner
    obtain ⟨verdict, marks⟩ := r
    cases step with
    | @matched output₀ last₀ saved₀ t between =>
      rw [Reading.resume_matched] at matched
      split at matched
      · next same => exact .inr (inner _ _ _ rfl same)
      · next moved =>
        -- A match that has moved on cannot end where it began.
        obtain ⟨output', rest⟩ := Reading.matched_of_mapOutput matched
        obtain ⟨t', between'⟩ := over_of_iterate ahead rest
        have shorter := between.length_lt moved
        have size := between'.length_ahead
        rw [still] at size
        omega
    | failed => exact .inl (eq_of_matched_enough matched).1
    | aborted => cases matched

end Meaning

namespace Engine

variable {π τ : Type} [CharTest π] {e : Engine π τ} {call : String → Matcher π → Meaning τ}
  {known : String → Bool}

theorem movesUnless_denoteSequence {ms : List (Matcher π)}
    (ahead : ∀ m ∈ ms, (e.denote call m).Ahead)
    (h : ∀ m ∈ ms, (e.denote call m).MovesUnless (m.isNullable known)) :
    (e.denoteSequence call ms).MovesUnless (Matcher.allNullable known ms) := by
  induction ms with
  | nil => exact Meaning.movesUnless_true _
  | cons m ms ih =>
    obtain ⟨ahead, aheads⟩ := List.forall_mem_cons.mp ahead
    obtain ⟨here, later⟩ := List.forall_mem_cons.mp h
    intro p saved output last saved' matched still
    have step := ahead p saved
    have inner := here p saved
    rw [denoteSequence_cons] at matched
    generalize e.denote call m p saved = r at matched step inner
    obtain ⟨verdict, marks⟩ := r
    cases step with
    | @matched output₀ last₀ saved₀ t between =>
      rw [Reading.onMatch_matched] at matched
      obtain ⟨output', rest⟩ := Reading.matched_of_mapOutput matched
      have onward := e.ahead_denoteSequence aheads last₀ saved₀
      rw [Reading.Ahead, rest] at onward
      cases onward with
      | matched between' =>
        have whole := (between.trans between').nil_of_ahead_eq still
        obtain ⟨rfl, rfl⟩ := List.append_eq_nil_iff.mp whole
        have first := inner _ _ _ rfl (congrArg Point.ahead between.eq_of_nil)
        have second :=
          ih aheads later last₀ saved₀ _ _ _ rest (congrArg Point.ahead between'.eq_of_nil)
        rw [Matcher.allNullable, first, second, Bool.and_self]
    | failed | aborted => cases matched

theorem movesUnless_denoteChoice {ms : List (Matcher π)}
    (h : ∀ m ∈ ms, (e.denote call m).MovesUnless (m.isNullable known)) (reach : Location) :
    (e.denoteChoice call ms reach).MovesUnless (Matcher.anyNullable known ms) := by
  induction ms generalizing reach with
  | nil =>
    intro p saved output last saved' matched
    cases matched
  | cons m ms ih =>
    obtain ⟨here, later⟩ := List.forall_mem_cons.mp h
    intro p saved output last saved' matched still
    have inner := here p saved
    rw [denoteChoice_cons] at matched
    generalize e.denote call m p saved = r at matched inner
    obtain ⟨verdict, marks⟩ := r
    rw [Matcher.anyNullable, Bool.or_eq_true]
    cases verdict with
    | matched output₀ last₀ saved₀ =>
      cases matched
      exact .inl (inner _ _ _ rfl still)
    | failed further => exact .inr (ih later _ p saved _ _ _ matched still)
    | aborted => cases matched

/-- A formed matcher that is not nullable consumes something when it matches, if that is
so of the definitions of rules. -/
theorem movesUnless_denote (sound : e.table.Sound) (ahead : ∀ name m, (call name m).Ahead)
    (rules : ∀ name (m : Matcher π), m.Formed e.table.nullable.holds →
      (call name m).MovesUnless (m.isNullable e.table.nullable.holds))
    {m : Matcher π} (formed : m.Formed e.table.nullable.holds) :
    (e.denote call m).MovesUnless (m.isNullable e.table.nullable.holds) := by
  induction m with
  | char cls =>
    rw [denote]
    exact Meaning.movesUnless_char _
  | text s =>
    rw [denote]
    exact Meaning.movesUnless_text formed.node
  | sequence ms ih =>
    rw [denote]
    exact movesUnless_denoteSequence (fun m _ => e.ahead_denote ahead m)
      fun m hm => ih m hm (formed.child hm)
  | choice ms ih =>
    intro p saved output last saved' matched
    rw [denote_choice] at matched
    exact movesUnless_denoteChoice (fun m hm => ih m hm (formed.child hm)) p.location p saved
      output last saved' matched
  | repetition m min max ih =>
    rw [denote]
    exact (ih (formed.child List.mem_cons_self)).repetition (e.ahead_denote ahead m) min max
  | ref name =>
    intro p saved output last saved' matched still
    cases found : e.table.rule? name with
    | none =>
      rw [denote, found] at matched
      cases matched
    | some r =>
      have member := RuleTable.mem_of_rule? found
      have inner := (sound.formed r member).child (c := r.definition) List.mem_cons_self
      rw [e.denote_ref found] at matched
      have nullable := rules r.name r.definition inner p saved output last saved' matched still
      exact RuleTable.name_of_rule? found ▸ sound.settled r member nullable
  | rule name m _ =>
    rw [denote]
    exact rules name m (formed.child List.mem_cons_self)
  | ignore m ih | join m ih =>
    rw [denote]
    exact (ih (formed.child List.mem_cons_self)).mapOutput _
  | mark m ih =>
    rw [denote]
    exact (ih (formed.child List.mem_cons_self)).mark
  | save name m ih =>
    rw [denote]
    exact (ih (formed.child List.mem_cons_self)).save name
  | endOfInput | optional m | absent m | load name => exact Meaning.movesUnless_true _

theorem movesUnless_applyRule (sound : e.table.Sound) (levels : Nat) (name : String)
    {m : Matcher π} (formed : m.Formed e.table.nullable.holds) :
    (e.applyRule levels name m).MovesUnless (m.isNullable e.table.nullable.holds) := by
  induction levels generalizing name m with
  | zero =>
    intro p saved output last saved' matched
    cases matched
  | succ levels ih =>
    exact (movesUnless_denote sound (e.ahead_applyRule levels) (fun name m => ih name)
      formed).mapOutput _

end Engine

end Peg
