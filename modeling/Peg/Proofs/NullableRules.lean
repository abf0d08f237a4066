import Peg.Grammar.Rule

/-!
# Nullable rules are all found

The nullable rules are found by sweeps over the rules, as many as there are rules. Each
sweep that changes anything finds another rule, so the last one has changed nothing, and
what it has left is closed: a rule whose body is nullable, as far as is known, is known to
be nullable (`NullMap.holds_compute_of_isNullable`).
-/

namespace Peg.NullMap

variable {π τ : Type}

/-- The number of rules that are not known to be nullable. -/
def unmarked (n : NullMap) : Nat := n.countP fun entry => !entry.2

def keys (n : NullMap) : List String := n.map (·.1)

/-! ## Marking a rule -/

@[simp] theorem keys_mark (n : NullMap) (name : String) : (n.mark name).keys = n.keys := by
  simp [keys, mark, List.map_map, Function.comp_def]

theorem mark_cons (key : String) (value : Bool) (n : NullMap) (name : String) :
    mark ((key, value) :: n) name = (key, value || key == name) :: mark n name := rfl

/-- Marking a rule changes nothing, or one rule more is known to be nullable. -/
theorem mark_eq_or_lt (n : NullMap) (name : String) :
    n.mark name = n ∨ (n.mark name).unmarked < n.unmarked := by
  induction n with
  | nil => exact .inl rfl
  | cons entry n ih =>
    obtain ⟨key, value⟩ := entry
    rw [mark_cons]
    cases value with
    | true =>
      rcases ih with same | less
      · exact .inl (congrArg ((key, true) :: ·) same)
      · exact .inr (by simpa [unmarked] using less)
    | false =>
      cases h : key == name with
      | false =>
        rcases ih with same | less
        · exact .inl (congrArg ((key, false) :: ·) same)
        · exact .inr (by simpa [unmarked] using less)
      | true =>
        have atMost : (mark n name).unmarked ≤ unmarked n := by
          rcases ih with same | less
          · exact Nat.le_of_eq (congrArg unmarked same)
          · exact Nat.le_of_lt less
        refine .inr ?_
        simp only [unmarked, List.countP_cons, Bool.false_or] at atMost ⊢
        simp only [Bool.not_true, Bool.not_false, if_pos, Bool.false_eq_true, if_false]
        omega

theorem holds_mark {n : NullMap} {name : String} (key : name ∈ n.keys) :
    (n.mark name).holds name = true := by
  induction n with
  | nil => exact absurd key List.not_mem_nil
  | cons entry n ih =>
    obtain ⟨first, value⟩ := entry
    rw [mark_cons, holds, List.lookup_cons]
    by_cases same : name = first
    · simp [same]
    · rw [beq_eq_false_iff_ne.mpr same]
      exact ih ((List.mem_cons.mp key).resolve_left same)

/-! ## Sweeps -/

/-- Looks at one rule. -/
def visit (n : NullMap) (r : Rule π τ) : NullMap :=
  if r.body.isNullable n.holds then n.mark r.name else n

theorem visit_eq_or_lt (n : NullMap) (r : Rule π τ) :
    n.visit r = n ∨ (n.visit r).unmarked < n.unmarked := by
  unfold visit
  split
  · exact mark_eq_or_lt n r.name
  · exact .inl rfl

theorem keys_visit (n : NullMap) (r : Rule π τ) : (n.visit r).keys = n.keys := by
  unfold visit
  split
  · exact keys_mark n r.name
  · rfl

/-- A sweep changes nothing at any rule, or one rule more is known to be nullable. -/
theorem sweep_eq_or_lt (rules : List (Rule π τ)) (n : NullMap) :
    (sweep rules n = n ∧ ∀ r ∈ rules, n.visit r = n) ∨ (sweep rules n).unmarked < n.unmarked := by
  induction rules generalizing n with
  | nil => exact .inl ⟨rfl, nofun⟩
  | cons r rules ih =>
    have whole : sweep (r :: rules) n = sweep rules (n.visit r) := rfl
    rw [whole]
    rcases visit_eq_or_lt n r with same | less
    · rw [same]
      exact (ih n).imp_left fun ⟨rest, all⟩ => ⟨rest, List.forall_mem_cons.mpr ⟨same, all⟩⟩
    · refine .inr ?_
      rcases ih (n.visit r) with ⟨rest, _⟩ | further
      · rwa [rest]
      · exact Nat.lt_trans further less

theorem keys_sweep (rules : List (Rule π τ)) (n : NullMap) : (sweep rules n).keys = n.keys := by
  induction rules generalizing n with
  | nil => rfl
  | cons r rules ih => exact (ih (n.visit r)).trans (keys_visit n r)

/-- With a sweep for each rule that is not known to be nullable, the last sweep changes
nothing. -/
theorem visit_settle {rules : List (Rule π τ)} {bound : Nat} {n : NullMap}
    (enough : n.unmarked ≤ bound) :
    ∀ r ∈ rules, (settle rules bound n).visit r = settle rules bound n := by
  induction bound generalizing n with
  | zero =>
    -- All rules are known to be nullable, and a sweep cannot find one more.
    rcases sweep_eq_or_lt rules n with ⟨_, all⟩ | less
    · exact all
    · omega
  | succ bound ih =>
    unfold settle
    dsimp only
    split
    · next same =>
      rcases sweep_eq_or_lt rules n with ⟨_, all⟩ | less
      · exact all
      · rw [same] at less
        exact absurd less (Nat.lt_irrefl _)
    · next changed =>
      rcases sweep_eq_or_lt rules n with ⟨same, _⟩ | less
      · exact absurd same changed
      · exact ih (by omega)

theorem keys_settle (rules : List (Rule π τ)) (bound : Nat) (n : NullMap) :
    (settle rules bound n).keys = n.keys := by
  induction bound generalizing n with
  | zero => rfl
  | succ bound ih =>
    unfold settle
    dsimp only
    split
    · rfl
    · exact (ih _).trans (keys_sweep rules n)

/-- A rule is found to be nullable if its body is, given all that is found. -/
theorem holds_compute_of_isNullable {rules : List (Rule π τ)} {r : Rule π τ} (hr : r ∈ rules)
    (nullable : r.body.isNullable (compute rules).holds = true) :
    (compute rules).holds r.name = true := by
  have enough : (ofRules rules).unmarked ≤ rules.length :=
    Nat.le_trans List.countP_le_length (Nat.le_of_eq (List.length_map _))
  have settled : (compute rules).visit r = compute rules := visit_settle enough r hr
  have key : r.name ∈ (compute rules).keys := by
    rw [compute, keys_settle, ofRules, keys, List.map_map]
    exact List.mem_map_of_mem hr
  rw [visit, if_pos nullable] at settled
  exact settled ▸ holds_mark key

/-- It takes a second sweep to find `"a"`, which comes before the rule it refers to. -/
example :
    let rules : List (Rule Empty Nat) :=
      [⟨"a", .ref "b", default, none⟩, ⟨"b", .optional (.ref "a"), default, none⟩]
    (compute rules).holds "a" = true := by decide

end Peg.NullMap
