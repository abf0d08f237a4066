import Peg.Proofs.BuiltTables
import Peg.Proofs.Refinement

/-!
# Matchers that save nothing

Only one kind of node saves texts. If neither a matcher nor the rules have one, a match
leaves the saved texts as they are (`Engine.saved_eq_of_saveless`). It is told of meanings,
for each way of combining them, and of rules for any number that may still be opened.
-/

namespace Peg

namespace Reading

variable {τ : Type} {saved : Saved}

/-- A match leaves the saved texts as they are. -/
def Keeps (saved : Saved) (r : Reading τ) : Prop :=
  ∀ output last saved', r.verdict = .matched output last saved' → saved' = saved

theorem keeps_matched (output : Output τ) (last : Point) (saved : Saved) (marks : List Mark) :
    (⟨.matched output last saved, marks⟩ : Reading τ).Keeps saved := by
  intro _ _ _ matched
  cases matched
  rfl

theorem keeps_failed (reach : Location) (saved : Saved) :
    (just (.failed reach) : Reading τ).Keeps saved := nofun

theorem Keeps.resume {r : Reading τ} (h : r.Keeps saved)
    {matched : Output τ → Point → Saved → Reading τ} {failed : Location → Reading τ}
    (hm : ∀ output last, (matched output last saved).Keeps saved)
    (hf : ∀ reach, (failed reach).Keeps saved) : (r.resume matched failed).Keeps saved := by
  obtain ⟨verdict, marks⟩ := r
  cases verdict with
  | matched output last saved' =>
    obtain rfl := h output last saved' rfl
    exact hm output last
  | failed reach => exact hf reach
  | aborted failure => exact nofun

theorem Keeps.onMatch {r : Reading τ} (h : r.Keeps saved)
    {matched : Output τ → Point → Saved → Reading τ}
    (hm : ∀ output last, (matched output last saved).Keeps saved) :
    (r.onMatch matched).Keeps saved :=
  h.resume hm fun reach => keeps_failed reach saved

theorem Keeps.mapOutput {r : Reading τ} (h : r.Keeps saved) (g : Output τ → Output τ) :
    (r.mapOutput g).Keeps saved :=
  h.onMatch fun output last => keeps_matched (g output) last saved []

end Reading

namespace Meaning

variable {τ : Type} {f : Meaning τ}

def Keeps (f : Meaning τ) : Prop := ∀ p saved, (f p saved).Keeps saved

theorem keeps_char (accepts : Char → Bool) : (char accepts : Meaning τ).Keeps := by
  intro p saved
  unfold char
  split
  · split
    · exact Reading.keeps_matched _ _ _ _
    · exact Reading.keeps_failed _ _
  · exact Reading.keeps_failed _ _

theorem keeps_text (t : Text) : (text t : Meaning τ).Keeps := by
  intro p saved
  unfold text
  split
  · exact Reading.keeps_matched _ _ _ _
  · exact Reading.keeps_failed _ _

theorem keeps_endOfInput : (endOfInput : Meaning τ).Keeps := by
  intro p saved
  unfold endOfInput
  split
  · exact Reading.keeps_matched _ _ _ _
  · exact Reading.keeps_failed _ _

theorem keeps_load (name : String) : (load name : Meaning τ).Keeps := by
  intro p saved
  unfold load
  split
  · exact keeps_text _ p saved
  · exact Reading.keeps_failed _ _

theorem keeps_abort (kind : FailureKind) : (abort kind : Meaning τ).Keeps := fun _ _ => nofun

theorem keeps_enough (reach : Location) (min : Nat) : (enough reach min : Meaning τ).Keeps := by
  intro p saved
  unfold enough
  split
  · exact Reading.keeps_matched _ _ _ _
  · exact Reading.keeps_failed _ _

theorem Keeps.optional (h : f.Keeps) : f.optional.Keeps := fun p saved =>
  (h p saved).resume (fun _ _ => Reading.keeps_matched _ _ _ _)
    fun _ => Reading.keeps_matched _ _ _ _

theorem Keeps.absent (h : f.Keeps) : f.absent.Keeps := fun p saved =>
  (h p saved).resume (fun _ _ => Reading.keeps_failed _ _)
    fun _ => Reading.keeps_matched _ _ _ _

theorem Keeps.iterate (h : f.Keeps) (start : Location) (bound : Nat) :
    ∀ min max, (iterate f start bound min max).Keeps := by
  induction bound with
  | zero => exact fun min _ => keeps_enough start min
  | succ bound ih =>
    intro min max p saved
    unfold Meaning.iterate
    split
    · exact keeps_enough start min p saved
    · refine (h p saved).resume (fun output last => ?_) fun reach => keeps_enough _ min p saved
      split
      · exact Reading.keeps_matched _ _ _ _
      · exact (ih _ _ last saved).mapOutput _

theorem Keeps.mark (h : f.Keeps) : f.mark.Keeps := fun p saved =>
  (h p saved).onMatch fun _ _ => Reading.keeps_matched _ _ _ _

end Meaning

/-! ## Matchers and rules -/

namespace Matcher

variable {π : Type}

def isSave : Matcher π → Bool
  | save _ _ => true
  | _ => false

/-- No node saves a text. -/
def Saveless (m : Matcher π) : Prop := m.Every fun n => n.isSave = false

instance (m : Matcher π) : Decidable m.Saveless :=
  inferInstanceAs (Decidable (∀ n ∈ m.subtrees, n.isSave = false))

theorem Saveless.child {m c : Matcher π} (h : m.Saveless) (hc : c ∈ m.children) : c.Saveless :=
  (every_iff.mp h).2 c hc

end Matcher

namespace Engine

variable {π τ : Type} [CharTest π] {e : Engine π τ} {call : String → Matcher π → Meaning τ}

theorem keeps_denoteSequence {ms : List (Matcher π)} (h : ∀ m ∈ ms, (e.denote call m).Keeps) :
    (e.denoteSequence call ms).Keeps := by
  induction ms with
  | nil => exact fun p saved => Reading.keeps_matched _ _ _ _
  | cons m ms ih =>
    intro p saved
    rw [denoteSequence_cons]
    exact (h m List.mem_cons_self p saved).onMatch fun output last =>
      (ih (fun m hm => h m (List.mem_cons_of_mem _ hm)) last saved).mapOutput _

theorem keeps_denoteChoice {ms : List (Matcher π)} (h : ∀ m ∈ ms, (e.denote call m).Keeps)
    (reach : Location) : (e.denoteChoice call ms reach).Keeps := by
  induction ms generalizing reach with
  | nil => exact fun _ saved => Reading.keeps_failed reach saved
  | cons m ms ih =>
    intro p saved
    rw [denoteChoice_cons]
    exact (h m List.mem_cons_self p saved).resume (fun _ _ => Reading.keeps_matched _ _ _ _)
      fun _ => ih (fun m hm => h m (List.mem_cons_of_mem _ hm)) _ p saved

theorem keeps_denote (rules : ∀ r ∈ e.table.rules, r.definition.Saveless)
    (calls : ∀ name (m : Matcher π), m.Saveless → (call name m).Keeps) {m : Matcher π}
    (saveless : m.Saveless) : (e.denote call m).Keeps := by
  induction m with
  | char cls => exact Meaning.keeps_char _
  | text t => exact Meaning.keeps_text t
  | endOfInput => exact Meaning.keeps_endOfInput
  | sequence ms ih => exact keeps_denoteSequence fun m hm => ih m hm (saveless.child hm)
  | choice ms ih =>
    exact fun p saved =>
      keeps_denoteChoice (fun m hm => ih m hm (saveless.child hm)) p.location p saved
  | repetition m min max ih =>
    exact fun p saved => (ih (saveless.child List.mem_cons_self)).iterate _ _ min max p saved
  | optional m ih => exact (ih (saveless.child List.mem_cons_self)).optional
  | absent m ih => exact (ih (saveless.child List.mem_cons_self)).absent
  | ref name =>
    unfold denote
    cases found : e.table.rule? name with
    | some r => exact calls _ _ (rules r (RuleTable.mem_of_rule? found))
    | none => exact Meaning.keeps_abort _
  | rule name m _ => exact calls name m (saveless.child List.mem_cons_self)
  | ignore m ih | join m ih =>
    exact fun p saved => (ih (saveless.child List.mem_cons_self) p saved).mapOutput _
  | mark m ih => exact (ih (saveless.child List.mem_cons_self)).mark
  | save name m _ => cases (Matcher.every_iff.mp saveless).1
  | load name => exact Meaning.keeps_load name

theorem keeps_applyRule (rules : ∀ r ∈ e.table.rules, r.definition.Saveless) (levels : Nat)
    (name : String) {m : Matcher π} (saveless : m.Saveless) :
    (e.applyRule levels name m).Keeps := by
  induction levels generalizing name m with
  | zero => exact Meaning.keeps_abort _
  | succ levels ih =>
    exact fun p saved => (keeps_denote rules (fun name m => ih name) saveless p saved).mapOutput _

/-- Beside rules that save nothing, a matcher that saves nothing keeps the saved texts. -/
theorem saved_eq_of_saveless (rules : ∀ r ∈ e.table.rules, r.definition.Saveless)
    {m : Matcher π} (saveless : m.Saveless) {s : State} (valid : s.reader.Valid)
    {output : Output τ} (succeeded : (e.step m s).outcome = .ok output) :
    (e.step m s).state.saved = s.saved := by
  have follows := e.means_step s.depth m s ⟨valid, rfl⟩
  have keeps : (e.denote (e.applyRule (e.settings.maxDepth - s.depth)) m).Keeps :=
    keeps_denote rules (fun name _ => keeps_applyRule rules _ name) saveless
  have kept := keeps s.point s.saved
  generalize e.step m s = r at follows succeeded ⊢
  generalize e.denote _ m s.point s.saved = v at follows kept
  cases follows with
  | matched => exact kept _ _ _ rfl
  | failed | aborted => cases succeeded

end Engine

end Peg
