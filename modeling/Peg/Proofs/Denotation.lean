import Peg.Match.Eval

/-!
# What matchers mean

The meaning of a matcher is a function of the point where it is tried and of the
texts saved so far. Both are passed by value, so there is nothing to go back to
after a failed attempt: no save points, no jumps, no restored texts.

A meaning keeps of a failure only how far into the text it went. Two matchers of
one meaning therefore do the same in every grammar, up to the words in which they
tell a failure.

* `Engine.denote` is the meaning of a matcher, `Engine.applyRule` that of a rule
  when a given number of them may still be opened.
* `Engine.ahead_denote`: a match only ever looks at and moves over the text ahead.
-/

namespace Peg

/-- The texts saved under names, latest first. -/
abbrev Saved := List (String × Text)

/-- Grammars need not name any tests. -/
instance : CharTest Empty where
  name := nofun
  accepts := nofun

/-! ## Points -/

/-- A point of a text, with what lies ahead of it. -/
structure Point where
  location : Location
  ahead : Text
deriving DecidableEq, Repr

namespace Point

/-- From `p` on lies the text `t`, and then `q`. -/
def Over (p : Point) (t : Text) (q : Point) : Prop :=
  p.ahead = t ++ q.ahead ∧ q.location = p.location.advanceOver t

/-- The point behind `t`, if that is ahead. -/
def past (p : Point) (t : Text) : Point := ⟨p.location.advanceOver t, p.ahead.drop t.length⟩

theorem over_past {p : Point} {t : Text} (next : t <+: p.ahead) : p.Over t (p.past t) := by
  obtain ⟨rest, whole⟩ := next
  exact ⟨by simp [past, ← whole], rfl⟩

theorem Over.refl (p : Point) : p.Over [] p := ⟨rfl, rfl⟩

theorem Over.trans {p q r : Point} {s t : Text} (first : p.Over s q) (second : q.Over t r) :
    p.Over (s ++ t) r := by
  obtain ⟨hp, hq⟩ := first
  obtain ⟨hq', hr⟩ := second
  exact ⟨by rw [hp, hq', List.append_assoc], by rw [hr, hq, Location.advanceOver_append]⟩

theorem Over.eq_of_nil {p q : Point} (between : p.Over [] q) : q = p := by
  obtain ⟨hp, hq⟩ := between
  cases p
  cases q
  simp_all

theorem Over.length_ahead {p q : Point} {t : Text} (between : p.Over t q) :
    p.ahead.length = t.length + q.ahead.length := by
  rw [between.1, List.length_append]

/-- Nothing lies between two points with the same text ahead. -/
theorem Over.nil_of_ahead_eq {p q : Point} {t : Text} (between : p.Over t q)
    (same : q.ahead = p.ahead) : t = [] := by
  have size := between.length_ahead
  rw [same] at size
  exact List.eq_nil_of_length_eq_zero (by omega)

theorem Over.length_lt {p q : Point} {t : Text} (between : p.Over t q)
    (moved : q.ahead ≠ p.ahead) : q.ahead.length < p.ahead.length := by
  have size := between.length_ahead
  rcases Nat.eq_zero_or_pos t.length with none | some
  · obtain rfl := List.eq_nil_of_length_eq_zero none
    exact absurd (congrArg Point.ahead between.eq_of_nil) moved
  · omega

end Point

namespace Location

/-- The one of two locations that is further into the text; the first if they are
equally far. -/
def later (a b : Location) : Location := if a.offset < b.offset then b else a

theorem later_assoc (a b c : Location) : (a.later b).later c = a.later (b.later c) := by
  unfold later
  grind

theorem later_eq_left {a b : Location} (h : b.offset ≤ a.offset) : a.later b = a :=
  if_neg (Nat.not_lt.mpr h)

@[simp] theorem later_self (a : Location) : a.later a = a := later_eq_left (Nat.le_refl _)

theorem later_eq_or (a b : Location) : a.later b = a ∨ a.later b = b := by
  unfold later
  split
  · exact .inr rfl
  · exact .inl rfl

/-- A location further on is the later one. -/
theorem later_advanceOver (l : Location) (t : Text) :
    l.later (l.advanceOver t) = l.advanceOver t := by
  cases t with
  | nil => exact later_self l
  | cons c t =>
    have size := c.utf8Size_pos
    refine if_pos ?_
    rw [advanceOver_offset, Text.byteSize_cons]
    omega

end Location

/-! ## Readings -/

/-- What becomes of a matcher at some point. -/
inductive Verdict (τ : Type) where
  /-- It matches up to `last`. -/
  | matched (output : Output τ) (last : Point) (saved : Saved)
  /-- It does not match; the attempt got as far as `reach`. -/
  | failed (reach : Location)
  /-- The run is over. -/
  | aborted (failure : Failure)

/-- A verdict, with the marked matches that were noted on the way to it. -/
structure Reading (τ : Type) where
  verdict : Verdict τ
  marks : List Mark

abbrev Meaning (τ : Type) := Point → Saved → Reading τ

namespace Reading

variable {τ : Type}

/-- A verdict with nothing noted. -/
def just (v : Verdict τ) : Reading τ := ⟨v, []⟩

/-- The reading with `marks` noted before it. -/
def after (marks : List Mark) (r : Reading τ) : Reading τ := { r with marks := marks ++ r.marks }

/-- Goes on from a match or from a failure. Nothing goes on when the run is over. -/
def resume (r : Reading τ) (matched : Output τ → Point → Saved → Reading τ)
    (failed : Location → Reading τ) : Reading τ :=
  match r.verdict with
  | .matched output last saved => (matched output last saved).after r.marks
  | .failed reach => (failed reach).after r.marks
  | .aborted _ => r

/-- Goes on from a match. -/
def onMatch (r : Reading τ) (matched : Output τ → Point → Saved → Reading τ) : Reading τ :=
  r.resume matched fun reach => just (.failed reach)

/-- Goes on from a failure. -/
def onFail (r : Reading τ) (failed : Location → Reading τ) : Reading τ :=
  r.resume (fun output last saved => just (.matched output last saved)) failed

def mapOutput (f : Output τ → Output τ) (r : Reading τ) : Reading τ :=
  r.onMatch fun output last saved => just (.matched (f output) last saved)

@[simp] theorem resume_matched (output : Output τ) (last : Point) (saved : Saved)
    (marks : List Mark) (matched : Output τ → Point → Saved → Reading τ)
    (failed : Location → Reading τ) :
    resume ⟨.matched output last saved, marks⟩ matched failed =
      (matched output last saved).after marks := rfl

@[simp] theorem resume_failed (reach : Location) (marks : List Mark)
    (matched : Output τ → Point → Saved → Reading τ) (failed : Location → Reading τ) :
    resume ⟨.failed reach, marks⟩ matched failed = (failed reach).after marks := rfl

@[simp] theorem resume_aborted (failure : Failure) (marks : List Mark)
    (matched : Output τ → Point → Saved → Reading τ) (failed : Location → Reading τ) :
    resume ⟨.aborted failure, marks⟩ matched failed = ⟨.aborted failure, marks⟩ := rfl

@[simp] theorem after_just (v : Verdict τ) (marks : List Mark) :
    (just v).after marks = ⟨v, marks⟩ := by
  simp [just, after]

@[simp] theorem onMatch_matched (output : Output τ) (last : Point) (saved : Saved)
    (marks : List Mark) (matched : Output τ → Point → Saved → Reading τ) :
    onMatch ⟨.matched output last saved, marks⟩ matched =
      (matched output last saved).after marks := rfl

@[simp] theorem onMatch_failed (reach : Location) (marks : List Mark)
    (matched : Output τ → Point → Saved → Reading τ) :
    onMatch ⟨.failed reach, marks⟩ matched = ⟨.failed reach, marks⟩ :=
  after_just _ marks

@[simp] theorem onMatch_aborted (failure : Failure) (marks : List Mark)
    (matched : Output τ → Point → Saved → Reading τ) :
    onMatch ⟨.aborted failure, marks⟩ matched = ⟨.aborted failure, marks⟩ := rfl

@[simp] theorem onFail_matched (output : Output τ) (last : Point) (saved : Saved)
    (marks : List Mark) (failed : Location → Reading τ) :
    onFail ⟨.matched output last saved, marks⟩ failed = ⟨.matched output last saved, marks⟩ :=
  after_just _ marks

@[simp] theorem onFail_failed (reach : Location) (marks : List Mark)
    (failed : Location → Reading τ) :
    onFail ⟨.failed reach, marks⟩ failed = (failed reach).after marks := rfl

@[simp] theorem onFail_aborted (failure : Failure) (marks : List Mark)
    (failed : Location → Reading τ) :
    onFail ⟨.aborted failure, marks⟩ failed = ⟨.aborted failure, marks⟩ := rfl

@[simp] theorem mapOutput_matched (f : Output τ → Output τ) (output : Output τ) (last : Point)
    (saved : Saved) (marks : List Mark) :
    mapOutput f ⟨.matched output last saved, marks⟩ = ⟨.matched (f output) last saved, marks⟩ :=
  after_just _ marks

@[simp] theorem mapOutput_failed (f : Output τ → Output τ) (reach : Location)
    (marks : List Mark) : mapOutput f ⟨.failed reach, marks⟩ = ⟨.failed reach, marks⟩ :=
  after_just _ marks

@[simp] theorem after_after (a b : List Mark) (r : Reading τ) :
    (r.after b).after a = r.after (a ++ b) := by
  simp [after]

/-- Marks noted before are noted before whatever one goes on to. -/
theorem resume_after (marks : List Mark) (r : Reading τ)
    (matched : Output τ → Point → Saved → Reading τ) (failed : Location → Reading τ) :
    (r.after marks).resume matched failed = (r.resume matched failed).after marks := by
  obtain ⟨verdict, marks'⟩ := r
  cases verdict with
  | matched output last saved => exact (after_after ..).symm
  | failed reach => exact (after_after ..).symm
  | aborted failure => rfl

/-- Going on from a match and then from that match or failure. -/
theorem resume_resume (r : Reading τ) (m m' : Output τ → Point → Saved → Reading τ)
    (f f' : Location → Reading τ) :
    (r.resume m f).resume m' f' =
      r.resume (fun output last saved => (m output last saved).resume m' f')
        (fun reach => (f reach).resume m' f') := by
  obtain ⟨verdict, marks⟩ := r
  cases verdict with
  | matched output last saved => exact resume_after marks (m output last saved) m' f'
  | failed reach => exact resume_after marks (f reach) m' f'
  | aborted failure => rfl

end Reading

/-! ## Combining meanings -/

namespace Meaning

variable {τ : Type}

def char (accepts : Char → Bool) : Meaning τ := fun p saved =>
  match p.ahead with
  | c :: _ =>
    if accepts c then .just (.matched (.fragment [c]) (p.past [c]) saved)
    else .just (.failed p.location)
  | [] => .just (.failed p.location)

def text (t : Text) : Meaning τ := fun p saved =>
  if t <+: p.ahead then .just (.matched (.fragment t) (p.past t) saved)
  else .just (.failed p.location)

def endOfInput : Meaning τ := fun p saved =>
  if p.ahead = [] then .just (.matched .empty p saved) else .just (.failed p.location)

/-- A failure here that ends the run. -/
def abort (kind : FailureKind) : Meaning τ := fun p _ => .just (.aborted ⟨kind, p.location⟩)

def optional (f : Meaning τ) : Meaning τ := fun p saved =>
  (f p saved).onFail fun _ => .just (.matched .empty p saved)

def absent (f : Meaning τ) : Meaning τ := fun p saved =>
  (f p saved).resume (fun _ _ _ => .just (.failed p.location))
    (fun _ => .just (.matched .empty p saved))

/-- The end of a repetition that is still to match `min` times. -/
def enough (reach : Location) (min : Nat) : Meaning τ := fun p saved =>
  .just (if min = 0 then .matched .empty p saved else .failed reach)

/-- Matches over and over, still at least `min` and at most `max` times. A match of
no width stands for all that are still wanted. The number bounds how often it may
still match. -/
def iterate (f : Meaning τ) (start : Location) : Nat → (min : Nat) → (max : Option Nat) → Meaning τ
  | 0, min, _ => enough start min
  | bound + 1, min, max => fun p saved =>
    if max = some 0 then enough start min p saved
    else
      (f p saved).resume
        (fun output last saved =>
          if last.ahead = p.ahead then .just (.matched output last saved)
          else
            (iterate f start bound (min - 1) (max.map (· - 1)) last saved).mapOutput output.append)
        (fun reach => enough (start.later reach) min p saved)

def repetition (f : Meaning τ) (min : Nat) (max : Option Nat) : Meaning τ := fun p saved =>
  iterate f p.location (p.ahead.length + 1) min max p saved

def mapOutput (g : Output τ → Output τ) (f : Meaning τ) : Meaning τ := fun p saved =>
  (f p saved).mapOutput g

def mark (f : Meaning τ) : Meaning τ := fun p saved =>
  (f p saved).onMatch fun output last saved =>
    ⟨.matched output last saved, [⟨⟨p.location, last.location⟩, output.fragments⟩]⟩

def save (name : String) (f : Meaning τ) : Meaning τ := fun p saved =>
  (f p saved).onMatch fun output last saved =>
    .just (.matched output last ((name, output.fragments.flatten) :: saved))

def load (name : String) : Meaning τ := fun p saved =>
  match saved.lookup name with
  | some t => text t p saved
  | none => .just (.failed p.location)

theorem char_eq_of_accepts {accepts : Char → Bool} {p : Point} {c : Char} {rest : Text}
    (next : p.ahead = c :: rest) (accepted : accepts c = true) (saved : Saved) :
    (char accepts p saved : Reading τ) =
      .just (.matched (.fragment [c]) (p.past [c]) saved) := by
  unfold char
  rw [next]
  exact if_pos accepted

theorem char_eq_of_refuses {accepts : Char → Bool} {p : Point}
    (refused : ∀ c rest, p.ahead = c :: rest → ¬ accepts c = true) (saved : Saved) :
    (char accepts p saved : Reading τ) = .just (.failed p.location) := by
  unfold char
  split
  · next c rest next => exact if_neg (refused c rest next)
  · rfl

end Meaning

/-! ## Meanings of matchers -/

namespace Engine

variable {π τ : Type} [CharTest π]

mutual

/-- The meaning of a matcher, where `call` is what rules mean. -/
def denote (e : Engine π τ) (call : String → Matcher π → Meaning τ) : Matcher π → Meaning τ
  | .char cls => .char cls.accepts
  | .text t => .text t
  | .endOfInput => .endOfInput
  | .sequence ms => denoteSequence e call ms
  | .choice ms => fun p saved => denoteChoice e call ms p.location p saved
  | .repetition m min max => .repetition (denote e call m) min max
  | .optional m => .optional (denote e call m)
  | .absent m => .absent (denote e call m)
  | .ref name =>
    match e.table.rule? name with
    | some rule => call rule.name rule.definition
    | none => .abort (.internal s!"rule '{name}' is not in the table")
  | .rule name m => call name m
  | .ignore m => .mapOutput (fun output => { output with fragments := [] }) (denote e call m)
  | .join m =>
    .mapOutput (fun output => { output with fragments := [output.fragments.flatten] })
      (denote e call m)
  | .mark m => .mark (denote e call m)
  | .save name m => .save name (denote e call m)
  | .load name => .load name

/-- All of several matchers, one after the other. -/
def denoteSequence (e : Engine π τ) (call : String → Matcher π → Meaning τ) :
    List (Matcher π) → Meaning τ
  | [] => fun p saved => .just (.matched .empty p saved)
  | m :: ms => fun p saved =>
    (denote e call m p saved).onMatch fun output last saved =>
      (denoteSequence e call ms last saved).mapOutput output.append

/-- The first of several matchers that matches, when attempts before them have got
as far as `reach`. -/
def denoteChoice (e : Engine π τ) (call : String → Matcher π → Meaning τ) :
    List (Matcher π) → (reach : Location) → Meaning τ
  | [], reach => fun _ _ => .just (.failed reach)
  | m :: ms, reach => fun p saved =>
    (denote e call m p saved).onFail fun further =>
      denoteChoice e call ms (reach.later further) p saved

end

theorem denoteSequence_cons (e : Engine π τ) (call : String → Matcher π → Meaning τ)
    (m : Matcher π) (ms : List (Matcher π)) (p : Point) (saved : Saved) :
    e.denoteSequence call (m :: ms) p saved =
      (e.denote call m p saved).onMatch fun output last saved =>
        (e.denoteSequence call ms last saved).mapOutput output.append := by
  rw [denoteSequence]

theorem denoteChoice_cons (e : Engine π τ) (call : String → Matcher π → Meaning τ)
    (m : Matcher π) (ms : List (Matcher π)) (reach : Location) (p : Point) (saved : Saved) :
    e.denoteChoice call (m :: ms) reach p saved =
      (e.denote call m p saved).onFail fun further =>
        e.denoteChoice call ms (reach.later further) p saved := by
  rw [denoteChoice]

theorem denote_choice (e : Engine π τ) (call : String → Matcher π → Meaning τ)
    (ms : List (Matcher π)) (p : Point) (saved : Saved) :
    e.denote call (.choice ms) p saved = e.denoteChoice call ms p.location p saved := by
  rw [denote]

theorem denote_ref (e : Engine π τ) {call : String → Matcher π → Meaning τ} {name : String}
    {r : Rule π τ} (found : e.table.rule? name = some r) :
    e.denote call (.ref name) = call r.name r.definition := by
  rw [denote, found]

/-- What the rule `name` with the given definition means, when so many rules may
still be opened. -/
def applyRule (e : Engine π τ) : (levels : Nat) → String → Matcher π → Meaning τ
  | 0, _, _ => .abort (.depthLimit e.settings.maxDepth)
  | levels + 1, name, m => .mapOutput (e.shape name) (e.denote (e.applyRule levels) m)

end Engine

/-! ## Matches move over the text ahead -/

/-- Everything that the verdict tells lies between `p` and the end of the text. -/
inductive Verdict.Ahead {τ : Type} (p : Point) : Verdict τ → Prop
  | matched {output : Output τ} {last : Point} {saved : Saved} {t : Text} :
      p.Over t last → Ahead p (.matched output last saved)
  | failed {q : Point} {t : Text} : p.Over t q → Ahead p (.failed q.location)
  | aborted {q : Point} {t : Text} {kind : FailureKind} :
      p.Over t q → Ahead p (.aborted ⟨kind, q.location⟩)

theorem Verdict.Ahead.trans {τ : Type} {p q : Point} {t : Text} {v : Verdict τ}
    (h : v.Ahead q) (between : p.Over t q) : v.Ahead p := by
  cases h with
  | matched h => exact .matched (between.trans h)
  | failed h => exact .failed (between.trans h)
  | aborted h => exact .aborted (between.trans h)

namespace Reading

variable {τ : Type} {p : Point}

def Ahead (p : Point) (r : Reading τ) : Prop := r.verdict.Ahead p

theorem Ahead.resume {r : Reading τ} (h : r.Ahead p)
    {matched : Output τ → Point → Saved → Reading τ} {failed : Location → Reading τ}
    (hm : ∀ output last saved t, p.Over t last → (matched output last saved).Ahead p)
    (hf : ∀ q t, p.Over t q → (failed q.location).Ahead p) :
    (r.resume matched failed).Ahead p := by
  obtain ⟨verdict, marks⟩ := r
  cases h with
  | matched between => exact hm _ _ _ _ between
  | failed between => exact hf _ _ between
  | aborted between => exact .aborted between

theorem Ahead.onMatch {r : Reading τ} (h : r.Ahead p)
    {matched : Output τ → Point → Saved → Reading τ}
    (hm : ∀ output last saved t, p.Over t last → (matched output last saved).Ahead p) :
    (r.onMatch matched).Ahead p :=
  h.resume hm fun _ _ between => .failed between

theorem Ahead.onFail {r : Reading τ} (h : r.Ahead p) {failed : Location → Reading τ}
    (hf : ∀ q t, p.Over t q → (failed q.location).Ahead p) : (r.onFail failed).Ahead p :=
  h.resume (fun _ _ _ _ between => .matched between) hf

theorem Ahead.mapOutput {r : Reading τ} (h : r.Ahead p) (f : Output τ → Output τ) :
    (r.mapOutput f).Ahead p :=
  h.onMatch fun _ _ _ _ between => .matched between

theorem Ahead.trans {q : Point} {t : Text} {r : Reading τ} (h : r.Ahead q) (between : p.Over t q) :
    r.Ahead p :=
  Verdict.Ahead.trans h between

end Reading

namespace Meaning

variable {τ : Type}

/-- The meaning is about the text ahead, at every point. -/
def Ahead (f : Meaning τ) : Prop := ∀ p saved, (f p saved).Ahead p

theorem ahead_char (accepts : Char → Bool) : (char accepts : Meaning τ).Ahead := by
  intro p saved
  unfold char
  split
  · next c rest next =>
    split
    · exact .matched (Point.over_past ⟨rest, next.symm⟩)
    · exact .failed (.refl p)
  · exact .failed (.refl p)

theorem ahead_text (t : Text) : (text t : Meaning τ).Ahead := by
  intro p saved
  unfold text
  split
  · next next => exact .matched (Point.over_past next)
  · exact .failed (.refl p)

theorem ahead_load (name : String) : (load name : Meaning τ).Ahead := by
  intro p saved
  unfold load
  split
  · exact ahead_text _ p saved
  · exact .failed (.refl p)

theorem ahead_endOfInput : (endOfInput : Meaning τ).Ahead := by
  intro p saved
  unfold endOfInput
  split
  · exact .matched (.refl p)
  · exact .failed (.refl p)

theorem ahead_abort (kind : FailureKind) : (abort kind : Meaning τ).Ahead :=
  fun p _ => .aborted (.refl p)

theorem Ahead.optional {f : Meaning τ} (h : f.Ahead) : f.optional.Ahead := fun p saved =>
  (h p saved).onFail fun _ _ _ => .matched (.refl p)

theorem Ahead.absent {f : Meaning τ} (h : f.Ahead) : f.absent.Ahead := fun p saved =>
  (h p saved).resume (fun _ _ _ _ _ => .failed (.refl p)) fun _ _ _ => .matched (.refl p)

theorem Ahead.mapOutput {f : Meaning τ} (h : f.Ahead) (g : Output τ → Output τ) :
    (mapOutput g f).Ahead := fun p saved => (h p saved).mapOutput g

theorem Ahead.mark {f : Meaning τ} (h : f.Ahead) : f.mark.Ahead := fun p saved =>
  (h p saved).onMatch fun _ _ _ _ between => .matched between

theorem Ahead.save {f : Meaning τ} (h : f.Ahead) (name : String) : (f.save name).Ahead :=
  fun p saved => (h p saved).onMatch fun _ _ _ _ between => .matched between

theorem ahead_enough {p₀ p q : Point} {s t : Text} (here : p₀.Over s p) (there : p₀.Over t q)
    (min : Nat) (saved : Saved) : (enough q.location min p saved : Reading τ).Ahead p₀ := by
  unfold enough
  split
  · exact .matched here
  · exact .failed there

/-- What a repetition that began at `p₀` tells lies ahead of `p₀`. -/
theorem Ahead.iterate {f : Meaning τ} (h : f.Ahead) {p₀ : Point} (bound : Nat) :
    ∀ {p : Point} {s : Text} (min : Nat) (max : Option Nat) (saved : Saved), p₀.Over s p →
      (iterate f p₀.location bound min max p saved).Ahead p₀ := by
  induction bound with
  | zero => exact fun min _ saved between => ahead_enough between (.refl p₀) min saved
  | succ bound ih =>
    intro p s min max saved between
    unfold Meaning.iterate
    split
    · exact ahead_enough between (.refl p₀) min saved
    · have first := h p saved
      generalize f p saved = r at first
      obtain ⟨verdict, marks⟩ := r
      cases first with
      | @matched output last saved' t step =>
        rw [Reading.resume_matched]
        split
        · exact .matched (between.trans step)
        · exact (ih _ _ saved' (between.trans step)).mapOutput _
      | @failed q t step =>
        -- The failure lies behind the start, so it is the later of the two.
        have later : p₀.location.later q.location = q.location := by
          rw [(between.trans step).2, Location.later_advanceOver]
        rw [Reading.resume_failed, later]
        exact ahead_enough between (between.trans step) min saved
      | @aborted q t kind step => exact .aborted (between.trans step)

theorem Ahead.repetition {f : Meaning τ} (h : f.Ahead) (min : Nat) (max : Option Nat) :
    (f.repetition min max).Ahead := fun p saved =>
  h.iterate _ min max saved (.refl p)

end Meaning

namespace Engine

variable {π τ : Type} [CharTest π]

theorem ahead_denoteSequence (e : Engine π τ) {call : String → Matcher π → Meaning τ}
    {ms : List (Matcher π)} (h : ∀ m ∈ ms, (e.denote call m).Ahead) :
    (e.denoteSequence call ms).Ahead := by
  induction ms with
  | nil => exact fun p saved => .matched (.refl p)
  | cons m ms ih =>
    intro p saved
    refine (h m List.mem_cons_self p saved).onMatch fun output last saved' t between => ?_
    have rest := ih (fun m hm => h m (List.mem_cons_of_mem _ hm)) last saved'
    exact (rest.trans between).mapOutput _

theorem ahead_denoteChoice (e : Engine π τ) {call : String → Matcher π → Meaning τ}
    {ms : List (Matcher π)} (h : ∀ m ∈ ms, (e.denote call m).Ahead) {p q : Point} {t : Text}
    (between : p.Over t q) (saved : Saved) :
    (e.denoteChoice call ms q.location p saved).Ahead p := by
  induction ms generalizing q t with
  | nil => exact .failed between
  | cons m ms ih =>
    refine (h m List.mem_cons_self p saved).onFail fun q' t' between' => ?_
    have rest {q t} := @ih (fun m hm => h m (List.mem_cons_of_mem _ hm)) q t
    rcases q.location.later_eq_or q'.location with first | second
    · rw [first]
      exact rest between
    · rw [second]
      exact rest between'

/-- A matcher only looks at and moves over the text ahead, if rules do. -/
theorem ahead_denote (e : Engine π τ) {call : String → Matcher π → Meaning τ}
    (h : ∀ name m, (call name m).Ahead) (m : Matcher π) : (e.denote call m).Ahead := by
  induction m with
  | char cls => exact Meaning.ahead_char _
  | text t => exact Meaning.ahead_text t
  | endOfInput => exact Meaning.ahead_endOfInput
  | sequence ms ih => exact e.ahead_denoteSequence ih
  | choice ms ih => exact fun p saved => e.ahead_denoteChoice ih (.refl p) saved
  | repetition m min max ih => exact ih.repetition min max
  | optional m ih => exact ih.optional
  | absent m ih => exact ih.absent
  | ref name =>
    unfold denote
    split
    · exact h _ _
    · exact Meaning.ahead_abort _
  | rule name m _ => exact h name m
  | ignore m ih | join m ih => exact ih.mapOutput _
  | mark m ih => exact ih.mark
  | save name m ih => exact ih.save name
  | load name => exact Meaning.ahead_load name

theorem ahead_applyRule (e : Engine π τ) (levels : Nat) (name : String) (m : Matcher π) :
    (e.applyRule levels name m).Ahead := by
  induction levels generalizing name m with
  | zero => exact Meaning.ahead_abort _
  | succ levels ih => exact (e.ahead_denote ih m).mapOutput _

end Engine

end Peg
