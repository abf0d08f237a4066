import Peg.Matcher.Checked
import Peg.Proofs.Denotation
import Peg.Proofs.Form

/-!
# Checked constructors ask what the check asks

A matcher can be built node by node with the checked constructors, from the leaves up, or it can
be put together without them and then be checked as a whole, from the topmost node down. What is
refused on the way up and what is found on the way down are written separately, and each looks
at nodes in its own order and form: the constructors bring sets and texts of one character into
their normal form first.

What is built is the same matcher with its sets in ascending order and its texts of one
character as that character (`Matcher.construct_eq_ok_iff`). The two agree
(`Matcher.construct_exact`). Where the construction succeeds, the check finds at most a defect
that no constructor guards against (`Defect.Unguarded`). Where it is refused, the refusal is
what the check says of some node, and the check refuses the matcher, whatever is known of the
rules.
-/

namespace Peg

theorem bind_eq_ok_iff {ε α β : Type} {x : Except ε α} {f : α → Except ε β} {b : β} :
    (x >>= f) = .ok b ↔ ∃ a, x = .ok a ∧ f a = .ok b := by
  cases x <;> simp [bind, Except.bind]

theorem bind_eq_error_iff {ε α β : Type} {x : Except ε α} {f : α → Except ε β} {e : ε} :
    (x >>= f) = .error e ↔ x = .error e ∨ ∃ a, x = .ok a ∧ f a = .error e := by
  cases x <;> simp [bind, Except.bind]

theorem unless_eq_ok_iff {α : Type} {c : Prop} [Decidable c] {defect : Defect} {a b : α} :
    (if c then Matcher.refuse defect else .ok a) = .ok b ↔ b = a ∧ ¬ c := by
  split <;> simp [*, eq_comm]

theorem unless_eq_error_iff {α : Type} {c : Prop} [Decidable c] {defect : Defect} {a : α}
    {error : GrammarError} :
    (if c then Matcher.refuse defect else .ok a) = .error error ↔
      c ∧ error = .malformed none defect := by
  split <;> simp [*, eq_comm]

/-- The defects that no constructor guards against. They are left to the check. -/
inductive Defect.Unguarded : Defect → Prop
  | endlessLoop (shown : String) : Unguarded (.endlessLoop shown)
  | nestedOptional (shown : String) : Unguarded (.nestedOptional shown)
  | emptyName : Unguarded .emptyName

namespace Matcher

variable {π : Type}

/-! ## Construction from the leaves up -/

mutual

/-- The matcher built again with the checked constructors: first what is below, from left to
right, and then the node itself, by the constructor of its kind. The first refusal ends it. -/
def construct : Matcher π → Except GrammarError (Matcher π)
  | char (.range lo hi) => range? lo hi
  | char (.oneOf cs) => oneOf? cs
  | char (.only c) => .ok (.char (.only c))
  | char (.satisfying p) => .ok (.char (.satisfying p))
  | text t => text? t
  | endOfInput => .ok .endOfInput
  | sequence ms => constructAll ms >>= sequence?
  | choice ms => constructAll ms >>= choice?
  | repetition m min max => construct m >>= (repetition? · min max)
  | optional m => construct m >>= fun inner => .ok (.optional inner)
  | absent m => construct m >>= fun inner => .ok (.absent inner)
  | ref name => .ok (.ref name)
  | rule name m => construct m >>= fun inner => .ok (.rule name inner)
  | ignore m => construct m >>= fun inner => .ok (.ignore inner)
  | join m => construct m >>= fun inner => .ok (.join inner)
  | mark m => construct m >>= fun inner => .ok (.mark inner)
  | save name m => construct m >>= fun inner => .ok (.save name inner)
  | load name => .ok (.load name)

def constructAll : List (Matcher π) → Except GrammarError (List (Matcher π))
  | [] => .ok []
  | m :: ms => construct m >>= fun first => constructAll ms >>= fun rest => .ok (first :: rest)

end

theorem constructAll_eq_error {ms : List (Matcher π)} {error : GrammarError}
    (h : constructAll ms = .error error) : ∃ m ∈ ms, m.construct = .error error := by
  induction ms with
  | nil => cases h
  | cons m ms ih =>
    rcases bind_eq_error_iff.mp h with here | ⟨first, _, h⟩
    · exact ⟨m, List.mem_cons_self, here⟩
    rcases bind_eq_error_iff.mp h with later | ⟨rest, _, h⟩
    · obtain ⟨n, hn, refused⟩ := ih later
      exact ⟨n, List.mem_cons_of_mem _ hn, refused⟩
    · cases h

/-! ## What is built -/

mutual

/-- The same matcher with its sets in ascending order, and with its texts of one character as
that character. -/
def arranged : Matcher π → Matcher π
  | char (.oneOf cs) => .char (.oneOf (Text.ascending cs))
  | char cls => .char cls
  | text [c] => .char (.only c)
  | text t => .text t
  | endOfInput => .endOfInput
  | sequence ms => .sequence (arrangedAll ms)
  | choice ms => .choice (arrangedAll ms)
  | repetition m min max => .repetition (arranged m) min max
  | optional m => .optional (arranged m)
  | absent m => .absent (arranged m)
  | ref name => .ref name
  | rule name m => .rule name (arranged m)
  | ignore m => .ignore (arranged m)
  | join m => .join (arranged m)
  | mark m => .mark (arranged m)
  | save name m => .save name (arranged m)
  | load name => .load name

def arrangedAll : List (Matcher π) → List (Matcher π)
  | [] => []
  | m :: ms => arranged m :: arrangedAll ms

end

theorem arrangedAll_eq_map (ms : List (Matcher π)) : arrangedAll ms = ms.map arranged := by
  induction ms with
  | nil => rfl
  | cons m ms ih => rw [arrangedAll, ih, List.map_cons]

/-- What the constructors see to in a node. -/
def GuardedNode : Matcher π → Prop
  | char cls => cls.Proper
  | text t => t ≠ []
  | sequence ms | choice ms => ms ≠ []
  | repetition _ min (some max) => min ≤ max
  | repetition _ _ none | endOfInput | optional _ | absent _ | ref _ | rule _ _ | ignore _
  | join _ | mark _ | save _ _ | load _ => True

abbrev Guarded (m : Matcher π) : Prop := m.Every GuardedNode

section

variable {b n : Matcher π}

theorem range?_eq_ok_iff {lo hi : Char} :
    range? lo hi = .ok b ↔ b = .char (.range lo hi) ∧ lo ≤ hi := by
  rw [range?, unless_eq_ok_iff, Char.not_lt]

theorem oneOf?_eq_ok_iff {cs : List Char} :
    oneOf? cs = .ok b ↔ b = .char (.oneOf (Text.ascending cs)) ∧ cs ≠ [] := by
  rw [oneOf?, unless_eq_ok_iff, List.isEmpty_iff]

theorem text?_eq_ok_iff {t : Text} : text? t = .ok b ↔ b = (text t).arranged ∧ t ≠ [] := by
  match t with
  | [] => simp [text?]
  | [_] | _ :: _ :: _ => simp [text?, arranged, eq_comm]

theorem sequence?_eq_ok_iff {ms : List (Matcher π)} :
    sequence? ms = .ok b ↔ b = .sequence ms ∧ ms ≠ [] := by
  rw [sequence?, unless_eq_ok_iff, List.isEmpty_iff]

theorem choice?_eq_ok_iff {ms : List (Matcher π)} :
    choice? ms = .ok b ↔ b = .choice ms ∧ ms ≠ [] := by
  rw [choice?, unless_eq_ok_iff, List.isEmpty_iff]

theorem repetition?_eq_ok_iff {inner : Matcher π} {min : Nat} {max : Option Nat} :
    repetition? inner min max = .ok b ↔
      b = .repetition inner min max ∧ (repetition inner min max).GuardedNode := by
  cases max with
  | none => simp [repetition?, GuardedNode, eq_comm]
  | some max =>
    rw [repetition?, unless_eq_ok_iff, Nat.not_lt]
    rfl

/-- A set is proper once it is in order, if there is anything in it. -/
theorem proper_ascending_iff (π : Type) (cs : List Char) :
    (CharClass.oneOf (Text.ascending cs) : CharClass π).Proper ↔ cs ≠ [] := by
  constructor
  · rintro ⟨some, _⟩ rfl
    exact some rfl
  · intro some
    obtain ⟨c, member⟩ := List.exists_mem_of_ne_nil cs some
    exact ⟨List.ne_nil_of_mem (Text.mem_ascending.mpr member), Text.isAscending_ascending cs⟩

/-- A node that nothing is asked of is built as it is. -/
theorem ok_eq_ok_iff (free : n.GuardedNode) :
    (.ok n : Except GrammarError (Matcher π)) = .ok b ↔ b = n ∧ n.GuardedNode := by
  rw [Except.ok.injEq, eq_comm]
  exact (and_iff_left free).symm

/-- With nothing below it, a node is seen to as soon as it is built. -/
theorem leaf_eq_ok_iff {node : Except GrammarError (Matcher π)} (leaf : n.children = [])
    (here : node = .ok b ↔ b = n ∧ n.GuardedNode) : node = .ok b ↔ b = n ∧ b.Guarded := by
  rw [here]
  refine and_congr_right ?_
  rintro rfl
  rw [Guarded, every_iff, leaf]
  exact (and_iff_left nofun).symm

/-- What is below a node is built and seen to before it is. -/
theorem bind_node_eq_ok_iff {α : Type} {below : Except GrammarError α}
    {node : α → Except GrammarError (Matcher π)} {a : α} {all : α → Prop}
    (inside : ∀ x, below = .ok x ↔ x = a ∧ all x)
    (here : node a = .ok b ↔ b = n ∧ n.GuardedNode)
    (children : all a ↔ ∀ c ∈ n.children, c.Guarded) :
    (below >>= node) = .ok b ↔ b = n ∧ b.Guarded := by
  rw [bind_eq_ok_iff]
  constructor
  · rintro ⟨x, built, h⟩
    obtain ⟨rfl, guarded⟩ := (inside x).mp built
    obtain ⟨rfl, guardedNode⟩ := here.mp h
    exact ⟨rfl, every_iff.mpr ⟨guardedNode, children.mp guarded⟩⟩
  · rintro ⟨rfl, guarded⟩
    obtain ⟨guardedNode, guarded⟩ := every_iff.mp guarded
    exact ⟨a, (inside a).mpr ⟨rfl, children.mpr guarded⟩, here.mpr ⟨rfl, guardedNode⟩⟩

theorem constructAll_eq_ok_iff {ms : List (Matcher π)}
    (each : ∀ m ∈ ms, ∀ b, m.construct = .ok b ↔ b = m.arranged ∧ b.Guarded)
    (built : List (Matcher π)) :
    constructAll ms = .ok built ↔ built = arrangedAll ms ∧ ∀ b ∈ built, b.Guarded := by
  induction ms generalizing built with
  | nil =>
    constructor
    · intro h
      cases h
      exact ⟨rfl, nofun⟩
    · rintro ⟨rfl, _⟩
      rfl
  | cons m ms ih =>
    obtain ⟨here, each⟩ := List.forall_mem_cons.mp each
    have later := ih each
    simp only [constructAll, bind_eq_ok_iff, here, later]
    constructor
    · rintro ⟨first, ⟨rfl, guarded⟩, rest, ⟨rfl, all⟩, h⟩
      cases h
      exact ⟨rfl, List.forall_mem_cons.mpr ⟨guarded, all⟩⟩
    · rintro ⟨rfl, all⟩
      obtain ⟨guarded, all⟩ := List.forall_mem_cons.mp all
      exact ⟨_, ⟨rfl, guarded⟩, _, ⟨rfl, all⟩, rfl⟩

/-- What the constructors build is the arranged matcher, and they build it exactly if each of
its nodes is one that they let pass. -/
theorem construct_eq_ok_iff {m : Matcher π} :
    m.construct = .ok b ↔ b = m.arranged ∧ b.Guarded := by
  induction m generalizing b with
  | char cls =>
    cases cls with
    | range lo hi => exact leaf_eq_ok_iff rfl range?_eq_ok_iff
    | oneOf cs =>
      have proper := proper_ascending_iff π cs
      exact leaf_eq_ok_iff rfl (oneOf?_eq_ok_iff.trans (and_congr_right fun _ => proper.symm))
    | only c | satisfying p => exact leaf_eq_ok_iff rfl (ok_eq_ok_iff trivial)
  | text t =>
    match t with
    | [] | _ :: _ :: _ => exact leaf_eq_ok_iff rfl text?_eq_ok_iff
    | [c] => exact leaf_eq_ok_iff rfl (ok_eq_ok_iff trivial)
  | sequence ms ih =>
    have inside := constructAll_eq_ok_iff fun m hm _ => ih m hm
    exact bind_node_eq_ok_iff inside sequence?_eq_ok_iff .rfl
  | choice ms ih =>
    have inside := constructAll_eq_ok_iff fun m hm _ => ih m hm
    exact bind_node_eq_ok_iff inside choice?_eq_ok_iff .rfl
  | repetition m min max ih =>
    exact bind_node_eq_ok_iff (fun _ => ih) repetition?_eq_ok_iff List.forall_mem_singleton.symm
  | optional m ih | absent m ih | rule name m ih | ignore m ih | join m ih | mark m ih
  | save name m ih =>
    exact bind_node_eq_ok_iff (fun _ => ih) (ok_eq_ok_iff trivial) List.forall_mem_singleton.symm
  | endOfInput | ref name | load name => exact leaf_eq_ok_iff rfl (ok_eq_ok_iff trivial)

/-- Of one matcher or more, at least one is built. -/
theorem eq_nil_of_constructAll {ms : List (Matcher π)} (h : constructAll ms = .ok []) :
    ms = [] := by
  obtain ⟨none, _⟩ := (constructAll_eq_ok_iff (fun _ _ _ => construct_eq_ok_iff) []).mp h
  rw [arrangedAll_eq_map] at none
  exact List.map_eq_nil_iff.mp none.symm

end

/-! ## What is refused -/

theorem mem_subtrees_of_child {m c n : Matcher π} (hc : c ∈ m.children) (hn : n ∈ c.subtrees) :
    n ∈ m.subtrees := by
  rw [subtrees_eq]
  exact List.mem_cons_of_mem _ (List.mem_flatMap.mpr ⟨c, hc, hn⟩)

section

variable [CharTest π]

/-- The check finds at most an unguarded defect in a node that the constructors have seen to. -/
theorem GuardedNode.unguarded {n : Matcher π} (h : n.GuardedNode) {known : String → Bool}
    {defect : Defect} (found : n.nodeDefect? known = some defect) : defect.Unguarded := by
  have formed : ¬ n.FormedNode known := by
    rw [← nodeDefect?_eq_none_iff, found]
    exact nofun
  cases n with
  | char | text | sequence | choice => exact absurd h formed
  | repetition m min max =>
    cases max with
    | some max => exact absurd h formed
    | none =>
      simp only [nodeDefect?] at found
      split at found
      · cases found
        exact .endlessLoop _
      · cases found
  | optional m =>
    cases m with
    | optional m =>
      cases found
      exact .nestedOptional _
    | _ => cases found
  | ref | rule | save | load =>
    simp only [nodeDefect?] at found
    split at found
    · cases found
      exact .emptyName
    · cases found
  | endOfInput | absent | ignore | join | mark => cases found

/-- The error tells the defect that the check finds in the topmost node, whatever is known of
the rules. -/
def Refused (error : GrammarError) (n : Matcher π) : Prop :=
  ∃ defect, error = .malformed none defect ∧ ∀ known, n.nodeDefect? known = some defect

variable {error : GrammarError}

theorem refused_of_range? {lo hi : Char}
    (h : (range? lo hi : Except GrammarError (Matcher π)) = .error error) :
    Refused error (.char (.range lo hi) : Matcher π) := by
  obtain ⟨inverted, rfl⟩ := unless_eq_error_iff.mp h
  exact ⟨_, rfl, fun _ => if_pos inverted⟩

theorem refused_of_oneOf? {cs : List Char}
    (h : (oneOf? cs : Except GrammarError (Matcher π)) = .error error) :
    Refused error (.char (.oneOf cs) : Matcher π) := by
  obtain ⟨none, rfl⟩ := unless_eq_error_iff.mp h
  exact ⟨_, rfl, fun _ => if_pos none⟩

theorem refused_of_text? {t : Text}
    (h : (text? t : Except GrammarError (Matcher π)) = .error error) :
    Refused error (.text t : Matcher π) := by
  unfold text? at h
  split at h
  · cases h
    exact ⟨_, rfl, fun _ => rfl⟩
  · cases h
  · cases h

theorem refused_of_sequence? {ms : List (Matcher π)} (h : sequence? ms = .error error) :
    ms = [] ∧ Refused error (.sequence [] : Matcher π) := by
  obtain ⟨none, rfl⟩ := unless_eq_error_iff.mp h
  exact ⟨List.isEmpty_iff.mp none, _, rfl, fun _ => rfl⟩

theorem refused_of_choice? {ms : List (Matcher π)} (h : choice? ms = .error error) :
    ms = [] ∧ Refused error (.choice [] : Matcher π) := by
  obtain ⟨none, rfl⟩ := unless_eq_error_iff.mp h
  exact ⟨List.isEmpty_iff.mp none, _, rfl, fun _ => rfl⟩

theorem refused_of_repetition? {inner : Matcher π} {min : Nat} {max : Option Nat}
    (h : repetition? inner min max = .error error) (raw : Matcher π) :
    Refused error (.repetition raw min max) := by
  cases max with
  | none => cases h
  | some max =>
    obtain ⟨inverted, rfl⟩ := unless_eq_error_iff.mp h
    exact ⟨_, rfl, fun _ => if_pos inverted⟩

/-- A refusal is what the check says of a node of the matcher. -/
theorem refused_of_construct {m : Matcher π} (h : m.construct = .error error) :
    ∃ n ∈ m.subtrees, n.Refused error := by
  have top {m : Matcher π} (here : m.Refused error) : ∃ n ∈ m.subtrees, n.Refused error :=
    ⟨m, mem_subtrees_self m, here⟩
  have below {m c : Matcher π} (hc : c ∈ m.children)
      (inside : ∃ n ∈ c.subtrees, n.Refused error) : ∃ n ∈ m.subtrees, n.Refused error := by
    obtain ⟨n, hn, refused⟩ := inside
    exact ⟨n, mem_subtrees_of_child hc hn, refused⟩
  induction m with
  | char cls =>
    cases cls with
    | range lo hi => exact top (refused_of_range? h)
    | oneOf cs => exact top (refused_of_oneOf? h)
    | only c | satisfying p => cases h
  | text t => exact top (refused_of_text? h)
  | sequence ms ih =>
    rcases bind_eq_error_iff.mp h with inner | ⟨built, all, node⟩
    · obtain ⟨m, hm, refused⟩ := constructAll_eq_error inner
      exact below hm (ih m hm refused)
    · obtain ⟨none, refused⟩ := refused_of_sequence? node
      obtain rfl := eq_nil_of_constructAll (none ▸ all)
      exact top refused
  | choice ms ih =>
    rcases bind_eq_error_iff.mp h with inner | ⟨built, all, node⟩
    · obtain ⟨m, hm, refused⟩ := constructAll_eq_error inner
      exact below hm (ih m hm refused)
    · obtain ⟨none, refused⟩ := refused_of_choice? node
      obtain rfl := eq_nil_of_constructAll (none ▸ all)
      exact top refused
  | repetition m min max ih =>
    rcases bind_eq_error_iff.mp h with inner | ⟨built, _, node⟩
    · exact below List.mem_cons_self (ih inner)
    · exact top (refused_of_repetition? node m)
  | optional m ih | absent m ih | rule name m ih | ignore m ih | join m ih | mark m ih
  | save name m ih =>
    rcases bind_eq_error_iff.mp h with inner | ⟨built, _, node⟩
    · exact below List.mem_cons_self (ih inner)
    · cases node
  | endOfInput | ref name | load name => cases h

/-- Where the constructors build a matcher, the check finds in it at most an unbounded loop over
nothing, an optional directly inside an optional, or an empty name, whatever is known of the
rules. Where they refuse one, they say what the check says of a node of the matcher as it was
written down, and the check refuses that matcher, whatever is known of the rules. -/
theorem construct_exact (m : Matcher π) :
    (∀ built, m.construct = .ok built → ∀ known defect,
      built.defect? known = some defect → defect.Unguarded) ∧
    ∀ error, m.construct = .error error →
      (∃ n ∈ m.subtrees, ∃ defect, error = .malformed none defect ∧
        ∀ known, n.nodeDefect? known = some defect) ∧
      ∀ known, ∃ defect, m.defect? known = some defect := by
  refine ⟨fun built h known defect found => ?_, fun error h => ?_⟩
  · obtain ⟨n, hn, here⟩ := List.exists_of_findSome?_eq_some found
    exact ((construct_eq_ok_iff.mp h).2 n hn).unguarded here
  · obtain ⟨n, hn, refused⟩ := refused_of_construct h
    refine ⟨⟨n, hn, refused⟩, fun known => ?_⟩
    obtain ⟨defect, _, here⟩ := refused
    refine Option.isSome_iff_exists.mp (List.findSome?_isSome_iff.mpr ⟨n, hn, ?_⟩)
    rw [here known]
    rfl

/-- The set is brought into order and the text of one character becomes that character. What is
built has a defect still, the first of those that are left to the check. In the other matcher
the constructors come to the empty text first and the check to the bounds of the repetition. -/
theorem construct_exact_two_matchers :
    let kept : Matcher Empty :=
      .sequence [.char (.oneOf ['b', 'a', 'b']), .text ['x'],
        .optional (.optional (.save "" (.ref "item"))), .repetition (.ref "blank") 1 none]
    let built : Matcher Empty :=
      .sequence [.char (.oneOf ['a', 'b']), .char (.only 'x'),
        .optional (.optional (.save "" (.ref "item"))), .repetition (.ref "blank") 1 none]
    let refused : Matcher Empty :=
      .choice [.repetition (.join (.text [])) 3 (some 2), .char (.range 'z' 'a')]
    let known : String → Bool := (· == "blank")
    let nested : Defect := .nestedOptional "save:(item)??"
    kept.construct = .ok built ∧ built.defect? known = some nested ∧ nested.Unguarded ∧
      refused.construct = .error (.malformed none .emptyText) ∧
      refused.defect? known = some (.invertedBounds 3 2) ∧
      ∀ known, ∃ defect, refused.defect? known = some defect := by
  intro kept built refused known nested
  have constructed : kept.construct = .ok built := rfl
  have found : built.defect? known = some nested := by decide +kernel
  have error : refused.construct = .error (.malformed none .emptyText) := rfl
  obtain ⟨unguarded, _⟩ := construct_exact kept
  obtain ⟨_, refuses⟩ := construct_exact refused
  exact ⟨constructed, found, unguarded built constructed known nested found, error, rfl,
    (refuses _ error).2⟩

end

end Matcher

end Peg
