import Mathlib.Logic.Relation
import Peg.Match.Run
import Peg.Proofs.BuiltTables
import Peg.Proofs.ReaderStates
import Peg.Proofs.Refinement

/-!
# What is reported of the text

A match tells where it lies, the text that it has consumed, and the fragments of it. Fragments
are made where characters are consumed, and outputs are only ever appended in the order of the
text, so the fragments are what is left of the consumed text when pieces of it are ignored. If
nothing that a matcher can come to ignores anything, they are the whole of it
(`Engine.run_reports_text`).

The same holds of every match that is noted on the way, also where it is given up later. It is
told of meanings (`Meaning.Reports`), for each way of combining them.
-/

namespace Peg

/-! ## Fragments of a text -/

/-- The fragments are pieces of `t` in their order; if they are to be exact, all of it. -/
structure Covers (exact : Prop) (fragments : List Text) (t : Text) : Prop where
  sublist : fragments.flatten.Sublist t
  whole : exact → fragments.flatten = t

namespace Covers

variable {exact : Prop} {a b : List Text} {s t : Text}

theorem nil : Covers exact [] [] := ⟨.refl _, fun _ => rfl⟩

theorem single (t : Text) : Covers exact [t] t := by
  have same : [t].flatten = t := List.flatten_singleton
  exact ⟨same.symm ▸ List.Sublist.refl t, fun _ => same⟩

theorem append (first : Covers exact a s) (second : Covers exact b t) :
    Covers exact (a ++ b) (s ++ t) := by
  constructor
  · rw [List.flatten_append]
    exact first.sublist.append second.sublist
  · intro h
    rw [List.flatten_append, first.whole h, second.whole h]

theorem joined (h : Covers exact a t) : Covers exact [a.flatten] t := by
  have same : [a.flatten].flatten = a.flatten := List.flatten_singleton
  exact ⟨same.symm ▸ h.sublist, fun exactly => same.trans (h.whole exactly)⟩

/-- Nothing at all is a part of any text. -/
theorem ignored (inexact : ¬ exact) (t : Text) : Covers exact [] t :=
  ⟨List.nil_sublist t, fun exactly => absurd exactly inexact⟩

end Covers

/-- A match noted ahead of `p`: what lies between its ends is covered by its fragments. -/
def Mark.Reports (exact : Prop) (p : Point) (mark : Mark) : Prop :=
  ∃ q r s t, p.Over s q ∧ q.Over t r ∧ mark.span = ⟨q.location, r.location⟩ ∧
    Covers exact mark.fragments t

theorem Mark.Reports.trans {exact : Prop} {p q : Point} {t : Text} {mark : Mark}
    (h : mark.Reports exact q) (between : p.Over t q) : mark.Reports exact p := by
  obtain ⟨q', r, s, t', ahead, inside, span, covers⟩ := h
  exact ⟨q', r, _, t', between.trans ahead, inside, span, covers⟩

/-! ## Readings that report the text -/

namespace Reading

variable {τ : Type} {exact : Prop} {p : Point}

/-- The output of a match and all that is noted on the way to it covers the text that it is
of. -/
structure Reports (exact : Prop) (p : Point) (r : Reading τ) : Prop where
  output : ∀ output last saved, r.verdict = .matched output last saved →
    ∃ t, p.Over t last ∧ Covers exact output.fragments t
  marks : ∀ mark ∈ r.marks, mark.Reports exact p

theorem reports_matched {output : Output τ} {last : Point} {t : Text} (between : p.Over t last)
    (covers : Covers exact output.fragments t) (saved : Saved) :
    (just (.matched output last saved)).Reports exact p where
  output _ _ _ same := by
    cases same
    exact ⟨t, between, covers⟩
  marks := nofun

theorem reports_empty (p : Point) (saved : Saved) :
    (just (.matched .empty p saved) : Reading τ).Reports exact p :=
  reports_matched (.refl p) .nil saved

theorem reports_failed (reach : Location) : (just (.failed reach) : Reading τ).Reports exact p :=
  ⟨nofun, nofun⟩

theorem Reports.after {r : Reading τ} (h : r.Reports exact p) {marks : List Mark}
    (earlier : ∀ mark ∈ marks, mark.Reports exact p) : (r.after marks).Reports exact p :=
  ⟨h.output, fun mark hm => (List.mem_append.mp hm).elim (earlier mark) (h.marks mark)⟩

theorem Reports.resume {r : Reading τ} (h : r.Reports exact p)
    {matched : Output τ → Point → Saved → Reading τ} {failed : Location → Reading τ}
    (hm : ∀ output last saved t, p.Over t last → Covers exact output.fragments t →
      (matched output last saved).Reports exact p)
    (hf : ∀ reach, (failed reach).Reports exact p) :
    (r.resume matched failed).Reports exact p := by
  obtain ⟨verdict, marks⟩ := r
  cases verdict with
  | matched output last saved =>
    obtain ⟨t, between, covers⟩ := h.output output last saved rfl
    exact (hm output last saved t between covers).after h.marks
  | failed reach => exact (hf reach).after h.marks
  | aborted failure => exact ⟨nofun, h.marks⟩

theorem Reports.onMatch {r : Reading τ} (h : r.Reports exact p)
    {matched : Output τ → Point → Saved → Reading τ}
    (hm : ∀ output last saved t, p.Over t last → Covers exact output.fragments t →
      (matched output last saved).Reports exact p) : (r.onMatch matched).Reports exact p :=
  h.resume hm reports_failed

theorem Reports.mapOutput {r : Reading τ} (h : r.Reports exact p) {g : Output τ → Output τ}
    (hg : ∀ output t, Covers exact output.fragments t → Covers exact (g output).fragments t) :
    (r.mapOutput g).Reports exact p :=
  h.onMatch fun output _ saved t between covers =>
    reports_matched between (hg output t covers) saved

/-- What goes on behind a match reports the text together with it. -/
theorem Reports.append {r : Reading τ} {q : Point} {t : Text} {output : Output τ}
    (h : r.Reports exact q) (between : p.Over t q) (covers : Covers exact output.fragments t) :
    (r.mapOutput output.append).Reports exact p := by
  obtain ⟨verdict, marks⟩ := r
  have noted : ∀ mark ∈ marks, mark.Reports exact p := fun mark hm =>
    (h.marks mark hm).trans between
  cases verdict with
  | matched more last saved =>
    obtain ⟨t', between', covers'⟩ := h.output more last saved rfl
    rw [mapOutput_matched, ← after_just]
    exact (reports_matched (between.trans between') (covers.append covers') saved).after noted
  | failed reach =>
    rw [mapOutput_failed, ← after_just]
    exact (reports_failed reach).after noted
  | aborted failure => exact ⟨nofun, noted⟩

end Reading

namespace Meaning

variable {τ : Type} {exact : Prop} {f : Meaning τ}

def Reports (exact : Prop) (f : Meaning τ) : Prop := ∀ p saved, (f p saved).Reports exact p

theorem reports_char (accepts : Char → Bool) : (char accepts : Meaning τ).Reports exact := by
  intro p saved
  unfold char
  split
  · next c rest next =>
    split
    · exact Reading.reports_matched (Point.over_past ⟨rest, next.symm⟩) (.single [c]) saved
    · exact Reading.reports_failed _
  · exact Reading.reports_failed _

theorem reports_text (t : Text) : (text t : Meaning τ).Reports exact := by
  intro p saved
  unfold text
  split
  · next next => exact Reading.reports_matched (Point.over_past next) (.single t) saved
  · exact Reading.reports_failed _

theorem reports_endOfInput : (endOfInput : Meaning τ).Reports exact := by
  intro p saved
  unfold endOfInput
  split
  · exact Reading.reports_empty p saved
  · exact Reading.reports_failed _

theorem reports_load (name : String) : (load name : Meaning τ).Reports exact := by
  intro p saved
  unfold load
  split
  · exact reports_text _ p saved
  · exact Reading.reports_failed _

theorem reports_abort (kind : FailureKind) : (abort kind : Meaning τ).Reports exact :=
  fun _ _ => ⟨nofun, nofun⟩

theorem reports_enough (reach : Location) (min : Nat) :
    (enough reach min : Meaning τ).Reports exact := by
  intro p saved
  unfold enough
  split
  · exact Reading.reports_empty p saved
  · exact Reading.reports_failed _

theorem Reports.optional (h : f.Reports exact) : f.optional.Reports exact := fun p saved =>
  (h p saved).resume
    (fun _ _ saved _ between covers => Reading.reports_matched between covers saved)
    fun _ => Reading.reports_empty p saved

theorem Reports.absent (h : f.Reports exact) : f.absent.Reports exact := fun p saved =>
  (h p saved).resume (fun _ _ _ _ _ _ => Reading.reports_failed _)
    fun _ => Reading.reports_empty p saved

theorem Reports.iterate (h : f.Reports exact) (start : Location) (bound : Nat) :
    ∀ min max, (iterate f start bound min max).Reports exact := by
  induction bound with
  | zero => exact fun min _ => reports_enough start min
  | succ bound ih =>
    intro min max p saved
    unfold Meaning.iterate
    split
    · exact reports_enough start min p saved
    · refine (h p saved).resume (fun output last saved' t between covers => ?_)
        fun reach => reports_enough _ min p saved
      split
      · exact Reading.reports_matched between covers saved'
      · exact (ih _ _ last saved').append between covers

theorem Reports.mapOutput (h : f.Reports exact) {g : Output τ → Output τ}
    (hg : ∀ output t, Covers exact output.fragments t → Covers exact (g output).fragments t) :
    (mapOutput g f).Reports exact := fun p saved => (h p saved).mapOutput hg

theorem Reports.mark (h : f.Reports exact) : f.mark.Reports exact := by
  refine fun p saved => (h p saved).onMatch fun output last saved' t between covers => ?_
  refine ⟨(Reading.reports_matched between covers saved').output, fun mark hm => ?_⟩
  obtain rfl := List.mem_singleton.mp hm
  exact ⟨p, last, [], t, .refl p, between, rfl, covers⟩

theorem Reports.save (h : f.Reports exact) (name : String) : (f.save name).Reports exact :=
  fun p saved => (h p saved).onMatch fun _ _ _ _ between covers =>
    Reading.reports_matched between covers _

end Meaning

/-! ## Matchers and rules -/

def Matcher.isIgnore {π : Type} : Matcher π → Bool
  | ignore _ => true
  | _ => false

namespace RuleTable

variable {π τ : Type} {t : RuleTable π τ} {m n : Matcher π}

/-- A matcher uses its children, and a reference uses the body of its rule. -/
inductive Uses (t : RuleTable π τ) : Matcher π → Matcher π → Prop
  | child {m n : Matcher π} : n ∈ m.children → Uses t m n
  | body {name : String} {r : Rule π τ} : t.rule? name = some r → Uses t (.ref name) r.body

/-- Neither the matcher nor what it uses, however far below it, ignores anything. -/
def Ignoreless (t : RuleTable π τ) (m : Matcher π) : Prop :=
  ∀ n, Relation.ReflTransGen t.Uses m n → n.isIgnore = false

theorem Ignoreless.used (h : t.Ignoreless m) (used : t.Uses m n) : t.Ignoreless n :=
  fun _ further => h _ (.head used further)

theorem Ignoreless.child (h : t.Ignoreless m) (hn : n ∈ m.children) : t.Ignoreless n :=
  h.used (.child hn)

/-- What is used lies below the matcher or is a rule. -/
theorem ignoreless_of_every (rules : ∀ r ∈ t.rules, r.body.Every fun n => n.isIgnore = false)
    (h : m.Every fun n => n.isIgnore = false) : t.Ignoreless m := by
  intro n used
  have below : n.Every fun n => n.isIgnore = false := by
    induction used with
    | refl => exact h
    | tail _ used ih =>
      cases used with
      | child hn => exact (Matcher.every_iff.mp ih).2 _ hn
      | body found => exact rules _ (mem_of_rule? found)
  exact (Matcher.every_iff.mp below).1

end RuleTable

namespace Engine

variable {π τ : Type} [CharTest π] {e : Engine π τ} {call : String → Matcher π → Meaning τ}
  {exact : Prop}

omit [CharTest π] in
theorem fragments_shape (name : String) (output : Output τ) :
    (e.shape name output).fragments = output.fragments := by
  unfold shape
  split <;> rfl

theorem reports_denoteSequence {ms : List (Matcher π)}
    (h : ∀ m ∈ ms, (e.denote call m).Reports exact) : (e.denoteSequence call ms).Reports exact := by
  induction ms with
  | nil => exact Reading.reports_empty
  | cons m ms ih =>
    intro p saved
    rw [denoteSequence_cons]
    refine (h m List.mem_cons_self p saved).onMatch fun output last saved' t between covers => ?_
    exact (ih (fun m hm => h m (List.mem_cons_of_mem _ hm)) last saved').append between covers

theorem reports_denoteChoice {ms : List (Matcher π)}
    (h : ∀ m ∈ ms, (e.denote call m).Reports exact) (reach : Location) :
    (e.denoteChoice call ms reach).Reports exact := by
  induction ms generalizing reach with
  | nil => exact fun _ _ => Reading.reports_failed reach
  | cons m ms ih =>
    intro p saved
    rw [denoteChoice_cons]
    exact (h m List.mem_cons_self p saved).resume
      (fun _ _ saved' _ between covers => Reading.reports_matched between covers saved')
      fun _ => ih (fun m hm => h m (List.mem_cons_of_mem _ hm)) _ p saved

/-- A matcher reports the text, exactly only if it uses nothing that ignores, if rules do. -/
theorem reports_denote
    (calls : ∀ name m, (exact → e.table.Ignoreless m) → (call name m).Reports exact) {m : Matcher π}
    (ignoreless : exact → e.table.Ignoreless m) : (e.denote call m).Reports exact := by
  induction m with
  | char cls => exact Meaning.reports_char _
  | text t => exact Meaning.reports_text t
  | endOfInput => exact Meaning.reports_endOfInput
  | sequence ms ih =>
    exact reports_denoteSequence fun m hm => ih m hm fun h => (ignoreless h).child hm
  | choice ms ih =>
    exact fun p => reports_denoteChoice (fun m hm => ih m hm fun h => (ignoreless h).child hm)
      p.location p
  | repetition m min max ih =>
    have inner := ih fun h => (ignoreless h).child List.mem_cons_self
    exact fun p => inner.iterate _ _ min max p
  | optional m ih => exact (ih fun h => (ignoreless h).child List.mem_cons_self).optional
  | absent m ih => exact (ih fun h => (ignoreless h).child List.mem_cons_self).absent
  | ref name =>
    unfold denote
    cases found : e.table.rule? name with
    | some r =>
      exact calls _ _ fun h => ((ignoreless h).used (.body found)).child List.mem_cons_self
    | none => exact Meaning.reports_abort _
  | rule name m _ => exact calls name m fun h => (ignoreless h).child List.mem_cons_self
  | ignore m ih =>
    have inexact : ¬ exact := fun h => Bool.noConfusion (ignoreless h _ .refl)
    exact (ih fun h => (ignoreless h).child List.mem_cons_self).mapOutput
      fun _ t _ => .ignored inexact t
  | join m ih =>
    exact (ih fun h => (ignoreless h).child List.mem_cons_self).mapOutput
      fun _ _ covers => covers.joined
  | mark m ih => exact (ih fun h => (ignoreless h).child List.mem_cons_self).mark
  | save name m ih => exact (ih fun h => (ignoreless h).child List.mem_cons_self).save name
  | load name => exact Meaning.reports_load name

theorem reports_applyRule (levels : Nat) (name : String) {m : Matcher π}
    (ignoreless : exact → e.table.Ignoreless m) : (e.applyRule levels name m).Reports exact := by
  induction levels generalizing name m with
  | zero => exact Meaning.reports_abort _
  | succ levels ih =>
    exact (reports_denote (fun name m => ih name) ignoreless).mapOutput fun output _ covers =>
      (fragments_shape name output).symm ▸ covers

end Engine

/-! ## Runs -/

/-- A stretch of the text is `matched`: that lies between the offsets of its ends, from its
first end on it leads to the last, line and column included, and the fragments cover it. -/
structure Span.Reports (exact : Prop) (text : Text) (span : Span) (fragments : List Text)
    (matched : Text) : Prop where
  between : ∃ front rest, text = front ++ matched ++ rest ∧
    front.byteSize = span.first.offset ∧ (front ++ matched).byteSize = span.last.offset
  last : span.last = span.first.advanceOver matched
  covers : Covers exact fragments matched

theorem Reader.span_reports {reader : Reader} (valid : reader.Valid) {exact : Prop} {q r : Point}
    {s t : Text} {fragments : List Text} (ahead : reader.point.Over s q) (inside : q.Over t r)
    (covers : Covers exact fragments t) :
    Span.Reports exact reader.text ⟨q.location, r.location⟩ fragments t := by
  obtain ⟨front, whole, size⟩ := valid.split
  have offset : (front ++ s).byteSize = q.location.offset := by
    rw [Text.byteSize_append, size, ahead.2, Location.advanceOver_offset]
    rfl
  have ahead : reader.remaining = s ++ q.ahead := ahead.1
  refine ⟨⟨front ++ s, r.ahead, ?_, offset, ?_⟩, inside.2, covers⟩
  · rw [whole, ahead, inside.1, List.append_assoc, List.append_assoc]
  · rw [Text.byteSize_append, offset, inside.2, Location.advanceOver_offset]

namespace Engine

variable {π τ : Type} [CharTest π]

/-- A checked matcher is run from where a reader has been left. If it matches, the span leads
from there to where the reader is left now, the text told as matched is what lies between, and
the fragments are parts of it in their order: all of it, if nothing that the matcher uses
ignores anything. The same holds of each match that is noted in the course of the run, whether
the run succeeds or not. -/
theorem run_reports_text {t : RuleTable π τ} {m : Matcher π} (checked : t.problem? m = none)
    (settings : Settings) {reader : Reader} (reachable : reader.Reachable) :
    ∃ a, Engine.run ⟨t, settings⟩ m reader = .ok a ∧
      (a.result.success = true →
        a.result.span = ⟨reader.location, a.reader.location⟩ ∧
        a.result.consumed = a.result.matched.length ∧
        a.result.span.Reports (t.Ignoreless m) reader.text a.result.fragments a.result.matched) ∧
      ∀ mark ∈ a.log.marks, ∃ matched,
        mark.span.Reports (t.Ignoreless m) reader.text mark.fragments matched := by
  let e : Engine π τ := ⟨t, settings⟩
  let s : State := ⟨reader, [], 0⟩
  have valid := reachable.valid
  have follows : Follows _ s (e.step m s) (e.denote _ m s.point []) :=
    e.means_step_zero m s ⟨valid, rfl⟩
  have reports : (e.denote (e.applyRule e.settings.maxDepth) m s.point []).Reports
      (t.Ignoreless m) reader.point :=
    reports_denote (e := e) (fun name _ => reports_applyRule _ name) id s.point []
  refine ⟨e.execute m reader, run_eq_execute checked, ?_⟩
  unfold execute
  generalize e.step m ⟨reader, [], 0⟩ = x at follows ⊢
  generalize e.denote _ m _ _ = v at follows reports
  have noted : ∀ mark ∈ v.marks, ∃ matched,
      mark.span.Reports (t.Ignoreless m) reader.text mark.fragments matched := by
    intro mark hm
    obtain ⟨q, r, _, matched, ahead, inside, span, covers⟩ := reports.marks mark hm
    exact ⟨matched, span ▸ Reader.span_reports valid ahead inside covers⟩
  cases follows with
  | @matched output last saved =>
    obtain ⟨matched, inside, covers⟩ := reports.output output last saved rfl
    have inside : reader.point.Over matched last := inside
    -- The text told as matched is cut out between the two locations.
    have slice : reader.slice reader.location.offset last.location.offset = some matched := by
      rw [inside.2, Location.advanceOver_offset]
      exact Reader.slice_position valid inside.1
    have cut : ((s.goTo last saved).reader.slice reader.location.offset
        last.location.offset).getD [] = matched := by
      show (reader.slice reader.location.offset last.location.offset).getD [] = matched
      rw [slice, Option.getD_some]
    refine ⟨fun _ => ⟨rfl, rfl, ?_⟩, noted⟩
    show Span.Reports _ _ ⟨reader.location, last.location⟩ output.fragments
      (((s.goTo last saved).reader.slice reader.location.offset last.location.offset).getD [])
    rw [cut]
    exact Reader.span_reports valid (.refl reader.point) inside covers
  | failed | aborted => exact ⟨nofun, noted⟩

/-- Two lines are matched from behind the first character on. Nothing is ignored, so the
fragments are the whole of the text, which has characters of one, two and three bytes. A word
is marked three times, the last time in a third line, which is given up for want of an end. -/
theorem reports_text_two_lines :
    let word : Matcher Empty :=
      .mark (.repetition (.choice [.char (.range 'a' 'z'), .text ['é', '€']]) 1 none)
    let line : Matcher Empty := .sequence [.save "word" word, .char (.only '\n')]
    let m : Matcher Empty := .repetition (.ref "line") 0 none
    let rules : List (Rule Empty Nat) := [⟨"line", line, default, none⟩]
    let t : RuleTable Empty Nat := ⟨rules, NullMap.compute rules, none, {}⟩
    let text : Text := ['-', 'a', 'é', '€', '\n', 'b', '\n', 'c']
    let reader := (Reader.ofText text).advance 1
    t.problem? m = none ∧ reader.Reachable ∧ t.Ignoreless m ∧
      ∃ a, Engine.run ⟨t, {}⟩ m reader = .ok a ∧ a.result.success = true ∧
        a.result.span.Reports (t.Ignoreless m) text a.result.fragments a.result.matched ∧
        a.result.span = ⟨⟨1, 2, 1⟩, ⟨3, 1, 10⟩⟩ ∧
        a.result.fragments.flatten = ['a', 'é', '€', '\n', 'b', '\n'] ∧
        a.log.marks.map (·.span) =
          [⟨⟨1, 2, 1⟩, ⟨1, 5, 7⟩⟩, ⟨⟨2, 1, 8⟩, ⟨2, 2, 9⟩⟩, ⟨⟨3, 1, 10⟩, ⟨3, 2, 11⟩⟩] ∧
        ∀ mark ∈ a.log.marks, ∃ matched,
          mark.span.Reports (t.Ignoreless m) text mark.fragments matched := by
  intro word line m rules t text reader
  have checked : t.problem? m = none := by decide
  have reachable : reader.Reachable := .advance 1 (.ofText text)
  have ignoreless : t.Ignoreless m :=
    RuleTable.ignoreless_of_every (show ∀ r ∈ t.rules, ∀ n ∈ r.body.subtrees, _ by decide)
      (show ∀ n ∈ m.subtrees, _ by decide)
  obtain ⟨a, ran, reported, marks⟩ := run_reports_text checked {} reachable
  have same : Engine.execute ⟨t, {}⟩ m reader = a := execute_of_run checked ran
  have success : a.result.success = true := by
    rw [← same]
    decide +kernel
  obtain ⟨-, -, covered⟩ := reported success
  refine ⟨checked, reachable, ignoreless, a, ran, success, covered, ?_, ?_, ?_, marks⟩
  all_goals
    rw [← same]
    decide +kernel

end Engine

end Peg
