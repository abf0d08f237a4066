import Peg.Proofs.Form
import Peg.Proofs.NullableRules

/-!
# What may happen before anything is consumed

Which matchers are nullable and which rules they may apply first is computed with a map of
the nullable rules, which is filled rule after rule, sweep after sweep. `Matcher.Nullable`
and `Matcher.Leads` say the same of the rules themselves: a reference may match nothing if
that follows from the definitions in finitely many steps. The map holds just the rules of
which it follows (`NullMap.holds_compute_iff`), whatever order they are swept in, so what is
computed from it is what is said here (`Matcher.isNullable_compute_iff`,
`Matcher.mem_leadingRefs_compute_iff`).
-/

namespace Peg

namespace Matcher

variable {π τ : Type}

/-- It follows from the matcher and the rules that it may match nothing. -/
inductive Nullable (rules : List (Rule π τ)) : Matcher π → Prop
  | endOfInput : Nullable rules endOfInput
  | sequence {ms : List (Matcher π)} :
      (∀ m ∈ ms, Nullable rules m) → Nullable rules (.sequence ms)
  | choice {ms : List (Matcher π)} {m : Matcher π} :
      m ∈ ms → Nullable rules m → Nullable rules (.choice ms)
  | zeroTimes {m : Matcher π} {max : Option Nat} : Nullable rules (.repetition m 0 max)
  | repetition {m : Matcher π} {min : Nat} {max : Option Nat} :
      Nullable rules m → Nullable rules (.repetition m min max)
  | optional {m : Matcher π} : Nullable rules (.optional m)
  | absent {m : Matcher π} : Nullable rules (.absent m)
  | ref {r : Rule π τ} : r ∈ rules → Nullable rules r.body → Nullable rules (.ref r.name)
  | rule {name : String} {m : Matcher π} : Nullable rules m → Nullable rules (.rule name m)
  | ignore {m : Matcher π} : Nullable rules m → Nullable rules (.ignore m)
  | join {m : Matcher π} : Nullable rules m → Nullable rules (.join m)
  | mark {m : Matcher π} : Nullable rules m → Nullable rules (.mark m)
  | save {name : String} {m : Matcher π} : Nullable rules m → Nullable rules (.save name m)
  | load {name : String} : Nullable rules (.load name)

/-- The matcher may apply the rule `name` when all that was matched before, if anything, may
have matched nothing. -/
inductive Leads (rules : List (Rule π τ)) (name : String) : Matcher π → Prop
  | ref : Leads rules name (.ref name)
  | sequence {before behind : List (Matcher π)} {m : Matcher π} :
      (∀ n ∈ before, n.Nullable rules) → Leads rules name m →
      Leads rules name (.sequence (before ++ m :: behind))
  | choice {ms : List (Matcher π)} {m : Matcher π} :
      m ∈ ms → Leads rules name m → Leads rules name (.choice ms)
  | repetition {m : Matcher π} {min : Nat} {max : Option Nat} :
      Leads rules name m → Leads rules name (.repetition m min max)
  | optional {m : Matcher π} : Leads rules name m → Leads rules name (.optional m)
  | absent {m : Matcher π} : Leads rules name m → Leads rules name (.absent m)
  | rule {rule : String} {m : Matcher π} : Leads rules name m → Leads rules name (.rule rule m)
  | ignore {m : Matcher π} : Leads rules name m → Leads rules name (.ignore m)
  | join {m : Matcher π} : Leads rules name m → Leads rules name (.join m)
  | mark {m : Matcher π} : Leads rules name m → Leads rules name (.mark m)
  | save {key : String} {m : Matcher π} : Leads rules name m → Leads rules name (.save key m)

section

variable {rules rules' : List (Rule π τ)} {m : Matcher π} {name : String}

/-! ## Other rules -/

theorem Nullable.of_subset (more : rules ⊆ rules') (h : m.Nullable rules) :
    m.Nullable rules' := by
  induction h with
  | endOfInput => exact .endOfInput
  | sequence _ ih => exact .sequence ih
  | choice member _ ih => exact .choice member ih
  | zeroTimes => exact .zeroTimes
  | repetition _ ih => exact .repetition ih
  | optional => exact .optional
  | absent => exact .absent
  | ref member _ ih => exact .ref (more member) ih
  | rule _ ih => exact .rule ih
  | ignore _ ih => exact .ignore ih
  | join _ ih => exact .join ih
  | mark _ ih => exact .mark ih
  | save _ ih => exact .save ih
  | load => exact .load

theorem Leads.of_subset (more : rules ⊆ rules') (h : m.Leads rules name) :
    m.Leads rules' name := by
  induction h with
  | ref => exact .ref
  | sequence before _ ih => exact .sequence (fun n hn => (before n hn).of_subset more) ih
  | choice member _ ih => exact .choice member ih
  | repetition _ ih => exact .repetition ih
  | optional _ ih => exact .optional ih
  | absent _ ih => exact .absent ih
  | rule _ ih => exact .rule ih
  | ignore _ ih => exact .ignore ih
  | join _ ih => exact .join ih
  | mark _ ih => exact .mark ih
  | save _ ih => exact .save ih

/-! ## Computed from what is known of the rules -/

variable {known : String → Bool}

theorem nullable_of_isNullable
    (sound : ∀ name, known name = true → (ref name : Matcher π).Nullable rules)
    (h : m.isNullable known = true) : m.Nullable rules := by
  induction m with
  | char cls | text t => cases h
  | endOfInput => exact .endOfInput
  | sequence ms ih =>
    rw [isNullable, allNullable_eq_all, List.all_eq_true] at h
    exact .sequence fun m hm => ih m hm (h m hm)
  | choice ms ih =>
    rw [isNullable, anyNullable_eq_any, List.any_eq_true] at h
    obtain ⟨m, hm, nullable⟩ := h
    exact .choice hm (ih m hm nullable)
  | repetition m min max ih =>
    rw [isNullable, Bool.or_eq_true, beq_iff_eq] at h
    rcases h with rfl | nullable
    · exact .zeroTimes
    · exact .repetition (ih nullable)
  | optional m => exact .optional
  | absent m => exact .absent
  | ref name => exact sound name h
  | rule name m ih => exact .rule (ih h)
  | ignore m ih => exact .ignore (ih h)
  | join m ih => exact .join (ih h)
  | mark m ih => exact .mark (ih h)
  | save name m ih => exact .save (ih h)
  | load name => exact .load

theorem isNullable_of_nullable
    (settled : ∀ r ∈ rules, r.body.isNullable known = true → known r.name = true)
    (h : m.Nullable rules) : m.isNullable known = true := by
  induction h with
  | endOfInput | optional | absent | load => rfl
  | sequence _ ih =>
    rw [isNullable, allNullable_eq_all]
    exact List.all_eq_true.mpr ih
  | choice member _ ih =>
    rw [isNullable, anyNullable_eq_any]
    exact List.any_eq_true.mpr ⟨_, member, ih⟩
  | zeroTimes => rfl
  | repetition _ ih => rw [isNullable, ih, Bool.or_true]
  | ref member _ ih => exact settled _ member ih
  | rule _ ih | ignore _ ih | join _ ih | mark _ ih | save _ ih => exact ih

theorem mem_leadingRefs_iff
    (exact : ∀ m : Matcher π, m.isNullable known = true ↔ m.Nullable rules) :
    name ∈ m.leadingRefs known ↔ m.Leads rules name := by
  constructor
  · intro h
    induction m with
    | sequence ms ih =>
      obtain ⟨before, m, behind, rfl, all, inside⟩ := mem_leadingOfSequence_iff.mp h
      refine .sequence (fun n hn => (exact n).mp (all n hn)) (ih m ?_ inside)
      exact List.mem_append_right _ List.mem_cons_self
    | choice ms ih =>
      rw [leadingRefs, leadingOfChoice_eq_flatMap] at h
      obtain ⟨m, hm, inside⟩ := List.mem_flatMap.mp h
      exact .choice hm (ih m hm inside)
    | repetition m min max ih => exact .repetition (ih h)
    | optional m ih => exact .optional (ih h)
    | absent m ih => exact .absent (ih h)
    | ref other =>
      obtain rfl := List.mem_singleton.mp h
      exact .ref
    | rule other m ih => exact .rule (ih h)
    | ignore m ih => exact .ignore (ih h)
    | join m ih => exact .join (ih h)
    | mark m ih => exact .mark (ih h)
    | save key m ih => exact .save (ih h)
    | char cls | text t | endOfInput | load key => cases h
  · intro h
    induction h with
    | ref => exact List.mem_singleton.mpr rfl
    | sequence before _ ih =>
      exact mem_leadingOfSequence_iff.mpr
        ⟨_, _, _, rfl, fun n hn => (exact n).mpr (before n hn), ih⟩
    | choice member _ ih =>
      rw [leadingRefs, leadingOfChoice_eq_flatMap]
      exact List.mem_flatMap.mpr ⟨_, member, ih⟩
    | repetition _ ih | optional _ ih | absent _ ih | rule _ ih | ignore _ ih | join _ ih
    | mark _ ih | save _ ih => exact ih

end

end Matcher

/-! ## The map of nullable rules -/

namespace NullMap

variable {π τ : Type} {rules : List (Rule π τ)}

theorem holds_of_holds_mark {n : NullMap} {name other : String}
    (h : (n.mark name).holds other = true) : n.holds other = true ∨ other = name := by
  induction n with
  | nil => exact .inl h
  | cons entry n ih =>
    obtain ⟨key, value⟩ := entry
    rw [mark_cons] at h
    unfold holds at h ih ⊢
    rw [List.lookup_cons] at h ⊢
    by_cases same : other = key
    · obtain rfl := same
      simpa using h
    · rw [beq_eq_false_iff_ne.mpr same] at h ⊢
      exact ih h

theorem holds_ofRules (rules : List (Rule π τ)) (name : String) :
    (ofRules rules).holds name = false := by
  induction rules with
  | nil => rfl
  | cons r rules ih =>
    unfold holds ofRules at ih ⊢
    rw [List.map_cons, List.lookup_cons]
    split
    · rfl
    · exact ih

/-- A rule is noted as nullable only if it follows that it is. -/
def Sound (rules : List (Rule π τ)) (n : NullMap) : Prop :=
  ∀ name, n.holds name = true → (Matcher.ref name : Matcher π).Nullable rules

theorem sound_ofRules (rules : List (Rule π τ)) : Sound rules (ofRules rules) := by
  intro name h
  rw [holds_ofRules] at h
  cases h

theorem Sound.visit {n : NullMap} (h : Sound rules n) {r : Rule π τ} (hr : r ∈ rules) :
    Sound rules (n.visit r) := by
  unfold NullMap.visit
  split
  · next nullable =>
    intro name found
    rcases holds_of_holds_mark found with before | rfl
    · exact h name before
    · exact .ref hr (Matcher.nullable_of_isNullable h nullable)
  · exact h

theorem Sound.sweep {n : NullMap} (h : Sound rules n) {part : List (Rule π τ)}
    (among : part ⊆ rules) : Sound rules (NullMap.sweep part n) := by
  induction part generalizing n with
  | nil => exact h
  | cons r part ih =>
    obtain ⟨first, rest⟩ := List.cons_subset.mp among
    exact ih (h.visit first) rest

theorem Sound.settle {n : NullMap} (h : Sound rules n) (bound : Nat) :
    Sound rules (NullMap.settle rules bound n) := by
  induction bound generalizing n with
  | zero => exact h
  | succ bound ih =>
    unfold NullMap.settle
    dsimp only
    split
    · exact h
    · exact ih (h.sweep (List.Subset.refl rules))

/-- A rule is found to be nullable exactly if it follows from the definitions that it is. -/
theorem holds_compute_iff {name : String} :
    (compute rules).holds name = true ↔ (Matcher.ref name : Matcher π).Nullable rules := by
  refine ⟨(sound_ofRules rules).settle rules.length name, fun h => ?_⟩
  exact Matcher.isNullable_of_nullable
    (fun r hr nullable => holds_compute_of_isNullable hr nullable) h

end NullMap

namespace Matcher

variable {π τ : Type} {rules : List (Rule π τ)} {m : Matcher π}

theorem isNullable_compute_iff :
    m.isNullable (NullMap.compute rules).holds = true ↔ m.Nullable rules :=
  ⟨nullable_of_isNullable fun _ => NullMap.holds_compute_iff.mp,
    isNullable_of_nullable fun _ hr nullable =>
      NullMap.holds_compute_of_isNullable hr nullable⟩

theorem mem_leadingRefs_compute_iff {name : String} :
    name ∈ m.leadingRefs (NullMap.compute rules).holds ↔ m.Leads rules name :=
  mem_leadingRefs_iff fun _ => isNullable_compute_iff

end Matcher

end Peg
