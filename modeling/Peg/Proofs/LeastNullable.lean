import Mathlib.Data.List.Nodup
import Peg.Proofs.BeforeConsuming

/-!
# The nullable rules are the least fixed point

The nullable rules are searched for in passes over the rules, until a pass has found none. A
pass leaves out what is known already, looks at every other rule with what it has found so
far, and notes a rule at once (`NullMap.pass`). No number of passes is given beforehand.

* `NullMap.known_pass` and `NullMap.changed_pass`: a pass comes to the same as a sweep, and
  it has found something exactly if the sweep changes the map.
* `NullMap.settles_settle`: the passes come to an end, with what bounded sweeps give.
* `NullMap.compute_least_fixed`: a rule is found exactly if its body is nullable by what is
  found, and whatever is closed under the rules has all of it.
-/

namespace Peg.NullMap

variable {π τ : Type} {rules : List (Rule π τ)} {n : NullMap}

/-! ## Passes -/

/-- A pass under way: what is known, and whether any of it was found in this pass. -/
structure Pass where
  known : NullMap
  changed : Bool

/-- Looks at one rule, unless it is known to be nullable. -/
def Pass.visit (p : Pass) (r : Rule π τ) : Pass :=
  if p.known.holds r.name then p
  else if r.body.isNullable p.known.holds then ⟨p.known.mark r.name, true⟩
  else p

/-- One pass over the rules. -/
def pass (rules : List (Rule π τ)) (n : NullMap) : Pass :=
  rules.foldl Pass.visit ⟨n, false⟩

/-- With `n` known, the passes end after `count` of them, and what is known then is the
result. -/
inductive Settles (rules : List (Rule π τ)) : (count : Nat) → (n result : NullMap) → Prop
  | done {n : NullMap} :
      (pass rules n).changed = false → Settles rules 1 n (pass rules n).known
  | again {count : Nat} {n result : NullMap} :
      (pass rules n).changed = true → Settles rules count (pass rules n).known result →
      Settles rules (count + 1) n result

/-! ## A pass is a sweep -/

theorem mark_of_not_mem {name : String} (absent : name ∉ n.keys) : n.mark name = n := by
  induction n with
  | nil => rfl
  | cons entry n ih =>
    obtain ⟨key, value⟩ := entry
    obtain ⟨other, absent⟩ := not_or.mp (mt List.mem_cons.mpr absent)
    have unlike : (key == name) = false := beq_eq_false_iff_ne.mpr (Ne.symm other)
    rw [mark_cons, ih absent, unlike, Bool.or_false]

/-- Where no key is given twice, noting what is known changes nothing. -/
theorem mark_of_holds {name : String} (distinct : n.keys.Nodup) (known : n.holds name = true) :
    n.mark name = n := by
  induction n with
  | nil => rfl
  | cons entry n ih =>
    obtain ⟨key, value⟩ := entry
    obtain ⟨fresh, distinct⟩ := List.nodup_cons.mp distinct
    rw [holds, List.lookup_cons] at known
    by_cases same : name = key
    · subst same
      obtain rfl : value = true := by simpa using known
      rw [mark_cons, mark_of_not_mem fresh, Bool.true_or]
    · rw [beq_eq_false_iff_ne.mpr same] at known
      have unlike : (key == name) = false := beq_eq_false_iff_ne.mpr (Ne.symm same)
      rw [mark_cons, ih distinct known, unlike, Bool.or_false]

/-- Leaving out a rule that is known comes to the same as looking at it. -/
theorem Pass.known_visit {p : Pass} (distinct : p.known.keys.Nodup) (r : Rule π τ) :
    (p.visit r).known = p.known.visit r := by
  unfold Pass.visit NullMap.visit
  by_cases known : p.known.holds r.name = true
  · rw [if_pos known, mark_of_holds distinct known, ite_self]
  · rw [if_neg known]
    split <;> rfl

theorem Pass.changed_visit {p : Pass} (distinct : p.known.keys.Nodup) {r : Rule π τ}
    (named : r.name ∈ p.known.keys) :
    (p.visit r).changed = false ↔ p.changed = false ∧ p.known.visit r = p.known := by
  unfold Pass.visit NullMap.visit
  by_cases known : p.known.holds r.name = true
  · rw [if_pos known, mark_of_holds distinct known, ite_self]
    simp
  · rw [if_neg known]
    split
    · -- The mark is seen, since it was not there before.
      have fresh : p.known.mark r.name ≠ p.known := fun same =>
        known (same ▸ holds_mark named)
      simp [fresh]
    · simp

theorem sweep_cons_eq_self_iff {r : Rule π τ} :
    sweep (r :: rules) n = n ↔ n.visit r = n ∧ sweep rules n = n := by
  constructor
  · intro same
    rcases sweep_eq_or_lt (r :: rules) n with ⟨_, all⟩ | less
    · have first := all r List.mem_cons_self
      have whole : sweep (r :: rules) n = sweep rules (n.visit r) := rfl
      rw [whole, first] at same
      exact ⟨first, same⟩
    · rw [same] at less
      exact absurd less (Nat.lt_irrefl _)
  · rintro ⟨first, rest⟩
    show sweep rules (n.visit r) = n
    rw [first, rest]

/-- The rest of a pass. It is a sweep, and it finds something exactly if that changes what is
known. -/
theorem foldl_visit {p : Pass} (distinct : p.known.keys.Nodup)
    (named : ∀ r ∈ rules, r.name ∈ p.known.keys) :
    (rules.foldl Pass.visit p).known = sweep rules p.known ∧
      ((rules.foldl Pass.visit p).changed = false ↔
        p.changed = false ∧ sweep rules p.known = p.known) := by
  induction rules generalizing p with
  | nil => simp [sweep]
  | cons r rules ih =>
    obtain ⟨first, rest⟩ := List.forall_mem_cons.mp named
    have known := Pass.known_visit distinct r
    have keys : (p.visit r).known.keys = p.known.keys := by rw [known, keys_visit]
    obtain ⟨knownRest, changedRest⟩ := @ih (p.visit r) (keys ▸ distinct) (keys ▸ rest)
    rw [List.foldl_cons]
    refine ⟨by rw [knownRest, known]; rfl, ?_⟩
    rw [changedRest, Pass.changed_visit distinct first, known, sweep_cons_eq_self_iff]
    constructor
    · rintro ⟨⟨before, same⟩, settled⟩
      exact ⟨before, same, same ▸ settled⟩
    · rintro ⟨before, same, settled⟩
      exact ⟨⟨before, same⟩, by rw [same, settled]⟩

section

variable (distinct : (rules.map (·.name)).Nodup) (keys : n.keys = rules.map (·.name))

include distinct keys

theorem known_pass : (pass rules n).known = sweep rules n :=
  (foldl_visit (p := ⟨n, false⟩) (keys ▸ distinct)
    fun _ hr => keys ▸ List.mem_map_of_mem hr).1

theorem changed_pass : (pass rules n).changed = false ↔ sweep rules n = n :=
  (foldl_visit (p := ⟨n, false⟩) (keys ▸ distinct)
    fun _ hr => keys ▸ List.mem_map_of_mem hr).2.trans (and_iff_right rfl)

/-! ## The passes come to an end -/

/-- Where a sweep changes nothing, one pass finds that out. -/
theorem settles_of_fixed (fixed : sweep rules n = n) : Settles rules 1 n n := by
  have last := Settles.done ((changed_pass distinct keys).mpr fixed)
  rwa [known_pass distinct keys, fixed] at last

/-- With a pass for each rule that is not known to be nullable, and one more that finds
nothing, the passes end with what bounded sweeps give. -/
theorem settles_settle {bound : Nat} (enough : n.unmarked ≤ bound) :
    ∃ count ≤ bound + 1, Settles rules count n (settle rules bound n) := by
  induction bound generalizing n with
  | zero =>
    rcases sweep_eq_or_lt rules n with ⟨same, _⟩ | less
    · exact ⟨1, Nat.le_refl _, settles_of_fixed distinct keys same⟩
    · omega
  | succ bound ih =>
    unfold settle
    dsimp only
    split
    · next same => exact ⟨1, by omega, settles_of_fixed distinct keys same⟩
    · next changed =>
      have found : (pass rules n).changed = true :=
        Bool.of_not_eq_false (mt (changed_pass distinct keys).mp changed)
      have fewer : (sweep rules n).unmarked < n.unmarked :=
        (sweep_eq_or_lt rules n).resolve_left fun unchanged => changed unchanged.1
      obtain ⟨count, few, rest⟩ := ih ((keys_sweep rules n).trans keys) (by omega)
      have onward : Settles rules count (pass rules n).known (settle rules bound (sweep rules n)) :=
        (known_pass distinct keys).symm ▸ rest
      exact ⟨count + 1, by omega, .again found onward⟩

end

/-! ## The least fixed point -/

theorem keys_compute (rules : List (Rule π τ)) : (compute rules).keys = rules.map (·.name) := by
  rw [compute, keys_settle, ofRules, keys, List.map_map]
  rfl

/-- A rule is found by its own name alone, if no other has that name. -/
theorem body_nullable_of_ref (distinct : (rules.map (·.name)).Nodup) {r : Rule π τ}
    (hr : r ∈ rules) (h : (Matcher.ref r.name : Matcher π).Nullable rules) :
    r.body.Nullable rules := by
  generalize named : (Matcher.ref r.name : Matcher π) = m at h
  cases h with
  | ref member nullable =>
    have same := List.inj_on_of_nodup_map distinct hr member (Matcher.ref.inj named)
    exact same ▸ nullable
  | _ => cases named

/-- Beside rules of distinct names, whatever their bodies, the search for the nullable ones
comes to an end, after at most one pass more than there are rules. What it returns has the
names of the rules as its keys. It tells of each rule whether its body is nullable by what is
returned, and it is below everything that is closed under the rules. -/
theorem compute_least_fixed (distinct : (rules.map (·.name)).Nodup) :
    (∃ count ≤ rules.length + 1, Settles rules count (ofRules rules) (compute rules)) ∧
    (compute rules).keys = rules.map (·.name) ∧
    (∀ r ∈ rules, (compute rules).holds r.name = r.body.isNullable (compute rules).holds) ∧
    ∀ known : String → Bool,
      (∀ r ∈ rules, r.body.isNullable known = true → known r.name = true) →
      ∀ name, (compute rules).holds name = true → known name = true := by
  refine ⟨?_, keys_compute rules, fun r hr => Bool.eq_iff_iff.mpr ?_, fun known closed name h => ?_⟩
  · have keys : (ofRules rules).keys = rules.map (·.name) := by
      rw [ofRules, NullMap.keys, List.map_map]
      rfl
    have enough : (ofRules rules).unmarked ≤ rules.length :=
      Nat.le_trans List.countP_le_length (Nat.le_of_eq (List.length_map _))
    exact settles_settle distinct keys enough
  · refine ⟨fun found => ?_, holds_compute_of_isNullable hr⟩
    exact Matcher.isNullable_compute_iff.mpr
      (body_nullable_of_ref distinct hr (holds_compute_iff.mp found))
  · exact Matcher.isNullable_of_nullable closed (holds_compute_iff.mp h)

/-- Two rules that lead to each other and to blanks may match nothing, and it takes a second
pass to find the first of them. Two others that lead only to each other would agree as well if
both were noted, but neither is. -/
theorem least_fixed_mutual_rules :
    let rules : List (Rule Empty Nat) :=
      [⟨"list", .sequence [.ref "more", .ref "blank"], default, none⟩,
        ⟨"more", .choice [.sequence [.char (.only ','), .ref "list"], .ref "blank"], default, none⟩,
        ⟨"blank", .repetition (.char (.only ' ')) 0 none, default, none⟩,
        ⟨"left", .sequence [.ref "right", .ref "blank"], default, none⟩,
        ⟨"right", .ignore (.ref "left"), default, none⟩]
    (rules.map (·.name)).Nodup ∧
      compute rules =
        [("list", true), ("more", true), ("blank", true), ("left", false), ("right", false)] ∧
      (∃ count ≤ 6, Settles rules count (ofRules rules) (compute rules)) ∧
      ∀ known : String → Bool,
        (∀ r ∈ rules, r.body.isNullable known = true → known r.name = true) →
          known "list" = true := by
  intro rules
  have distinct : (rules.map (·.name)).Nodup := by decide
  have found : compute rules =
      [("list", true), ("more", true), ("blank", true), ("left", false), ("right", false)] := by
    decide
  obtain ⟨ends, _, _, least⟩ := compute_least_fixed distinct
  exact ⟨distinct, found, ends, fun known closed => least known closed "list" (found ▸ rfl)⟩

end Peg.NullMap
