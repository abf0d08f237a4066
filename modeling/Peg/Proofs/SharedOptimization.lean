import Peg.Proofs.InternedTrees
import Peg.Proofs.OptimizedForm

/-!
# Optimization of shared trees

A session keeps what it has made of each node and gives it out again when it meets the node
again. At any time the nodes worked on form a stack, the notes tell of the choices among them
in the order in which they were done, and what is kept for a node is what optimizing its tree
would give (`Session.Worked`).

So nobody can tell from the results that anything was kept
(`Session.optimizeAll_invisible`): they are the trees that sessions of their own would have
given. What shows is in the notes, where every choice is reduced once, behind those below it.
-/

namespace Peg

/-! ## Pieces of lists of nodes -/

section

variable {α β : Type}

def Segment.map (f : α → β) : Segment α → Segment β
  | run members => run (members.map f)
  | other member => other (f member)

theorem segments_map (f : α → β) (inRun : β → Bool) (as : List α) :
    segments inRun (as.map f) = (segments (fun a => inRun (f a)) as).map (.map f) := by
  induction as with
  | nil => rfl
  | cons a as ih =>
    rw [List.map_cons, segments, segments, ih]
    split
    · cases segments (fun a => inRun (f a)) as with
      | nil => rfl
      | cons segment rest => cases segment <;> rfl
    · rfl

end

variable {π : Type}

namespace Matcher

theorem children_withChildren {m : Matcher π} {ms : List (Matcher π)}
    (size : ms.length = m.children.length) : (m.withChildren ms).children = ms := by
  cases m with
  | sequence | choice => rfl
  | repetition | optional | absent | rule | ignore | join | mark | save =>
    obtain ⟨c, rfl⟩ := List.length_eq_one_iff.mp size
    rfl
  | char | text | endOfInput | ref | load => exact (List.eq_nil_of_length_eq_zero size).symm

/-- Only choices and optional matchers become anything but a node like themselves. -/
theorem optimize_eq_withChildren {m : Matcher π} (noChoice : ∀ ms, m ≠ choice ms)
    (notOptional : ∀ c, m ≠ optional c) :
    m.optimize = m.withChildren (m.children.map optimize) := by
  cases m with
  | choice ms => exact absurd rfl (noChoice ms)
  | optional c => exact absurd rfl (notOptional c)
  | sequence ms => rw [optimize, optimizeAll_eq_map]; rfl
  | repetition | absent | rule | ignore | join | mark | save => rfl
  | char | text | endOfInput | ref | load => rfl

end Matcher

/-- What is noted of a node when it is worked on: a choice is reduced. -/
def Reduction.of? (n : Shared π) : Option Reduction :=
  match n.tree with
  | .choice ms => some ⟨n.id, ms.length, (Matcher.reduceChoice (ms.map Matcher.optimize)).length⟩
  | _ => none

theorem Reduction.node_of? {n : Shared π} {r : Reduction} (h : of? n = some r) : r.node = n.id := by
  unfold of? at h
  split at h
  · cases h
    rfl
  · cases h

theorem Reduction.sublist_nodes (ns : List (Shared π)) :
    ((ns.filterMap of?).map (·.node)).Sublist (ns.map (·.id)) := by
  induction ns with
  | nil => exact .slnil
  | cons n ns ih =>
    rw [List.filterMap_cons, List.map_cons]
    cases note : of? n with
    | none => exact ih.cons _
    | some r =>
      rw [← node_of? note]
      exact ih.cons_cons _

namespace Session

/-! ## Nodes that are made -/

/-- The session has made nodes for the trees and has become `s'`. -/
structure Makes (s : Session π) (trees : List (Matcher π)) (nodes : List (Shared π))
    (s' : Session π) : Prop where
  trees : nodes.map (·.tree) = trees
  laidOut : ∀ n ∈ nodes, n.LaidOut
  results : s'.results = s.results
  reductions : s'.reductions = s.reductions

variable {s s' s'' : Session π} {trees trees' : List (Matcher π)} {n : Shared π}
  {nodes nodes' inner : List (Shared π)}

/-- Nodes that are there need not be made. -/
theorem makes_nothing (s : Session π) (nodes : List (Shared π)) (h : ∀ n ∈ nodes, n.LaidOut) :
    s.Makes (nodes.map (·.tree)) nodes s :=
  ⟨rfl, h, rfl, rfl⟩

theorem Makes.append (first : s.Makes trees nodes s') (rest : s'.Makes trees' nodes' s'') :
    s.Makes (trees ++ trees') (nodes ++ nodes') s'' := by
  refine ⟨?_, fun n hn => ?_, rest.results.trans first.results,
    rest.reductions.trans first.reductions⟩
  · rw [List.map_append, first.trees, rest.trees]
  · exact (List.mem_append.mp hn).elim (first.laidOut n) (rest.laidOut n)

theorem makes_fresh (s : Session π) (tree : Matcher π) (inner : List (Shared π))
    (same : tree.children = inner.map (·.tree)) (laidOut : ∀ n ∈ inner, n.LaidOut) :
    s.Makes [tree] [(s.fresh tree (inner.map (·.labels))).1]
      (s.fresh tree (inner.map (·.labels))).2 := by
  refine ⟨rfl, List.forall_mem_singleton.mpr (Shared.laidOut_iff.mpr ⟨?_, ?_⟩), rfl, rfl⟩
  · show (inner.map (·.labels)).length = tree.children.length
    rw [same, List.length_map, List.length_map]
  · rw [fresh, Shared.children_above same]
    exact laidOut

theorem makes_duplicate (s : Session π) (laidOut : n.LaidOut) :
    s.Makes [n.tree] [(s.duplicate n).1] (s.duplicate n).2 := by
  rw [duplicate, ← laidOut.fits.labels]
  exact s.makes_fresh _ _ laidOut.fits.trees.symm fun c hc => laidOut.child hc

theorem makes_freshChars (s : Session π) (classes : List (CharClass π)) :
    s.Makes (classes.map .char) (s.freshChars classes).1 (s.freshChars classes).2 := by
  induction classes generalizing s with
  | nil => exact s.makes_nothing [] nofun
  | cons cls rest ih => exact (s.makes_fresh (.char cls) [] rfl nofun).append (ih _)

/-! ## Choices and optional matchers -/

theorem tree_filter_isTest (members : List (Shared π)) :
    (members.filter isTest).map (·.tree) =
      (((members.map (·.tree)).filterMap Matcher.charClass?).filter CharRun.isTest).map .char := by
  induction members with
  | nil => rfl
  | cons n members ih =>
    obtain ⟨tree, labels⟩ := n
    cases tree with
    | char cls =>
      have kind : isTest ⟨.char cls, labels⟩ = CharRun.isTest cls := rfl
      simp only [List.map_cons, List.filterMap_cons, Matcher.charClass?, List.filter_cons, kind]
      split
      · exact congrArg (.char cls :: ·) ih
      · exact ih
    | _ => exact ih

theorem makes_mergeSegment (s : Session π) {segment : Segment (Shared π)}
    (laidOut : ∀ n ∈ segment.members, n.LaidOut) :
    s.Makes (Matcher.mergeSegment (segment.map (·.tree))) (s.mergeSegment segment).1
      (s.mergeSegment segment).2 := by
  cases segment with
  | other n => exact s.makes_nothing [n] laidOut
  | run members =>
    have tests : ∀ n ∈ members.filter isTest, n.LaidOut := fun n hn =>
      laidOut n (List.mem_of_mem_filter hn)
    have made := (s.makes_freshChars
      (CharRun.mergeChars (members.filterMap (·.tree.charClass?)))).append (makes_nothing _ _ tests)
    rw [tree_filter_isTest, ← List.map_append, List.filterMap_map] at made
    rw [Segment.map, Matcher.mergeSegment, CharRun.merge, List.filterMap_map]
    exact made

theorem makes_mergeSegments (s : Session π) (segments : List (Segment (Shared π)))
    (laidOut : ∀ n ∈ segments.flatMap (·.members), n.LaidOut) :
    s.Makes ((segments.map (.map (·.tree))).flatMap Matcher.mergeSegment)
      (s.mergeSegments segments).1 (s.mergeSegments segments).2 := by
  induction segments generalizing s with
  | nil => exact s.makes_nothing [] nofun
  | cons segment rest ih =>
    rw [List.flatMap_cons] at laidOut
    obtain ⟨first, others⟩ := List.forall_mem_append.mp laidOut
    exact (s.makes_mergeSegment first).append (ih _ others)

theorem tree_alternatives (laidOut : n.LaidOut) :
    (alternatives n).map (·.tree) = n.tree.alternatives := by
  have trees := laidOut.fits.trees
  unfold alternatives
  split
  · next ms choice =>
    rw [trees, choice]
    rfl
  · next noChoice =>
    rw [Matcher.alternatives.eq_2 _ noChoice]
    rfl

theorem laidOut_of_mem_alternatives (laidOut : n.LaidOut) {a : Shared π}
    (ha : a ∈ alternatives n) : a.LaidOut := by
  unfold alternatives at ha
  split at ha
  · exact laidOut.child ha
  · exact List.mem_singleton.mp ha ▸ laidOut

/-- The alternatives of a choice as the nodes they have become. -/
theorem makes_alternatives (s : Session π) (laidOut : ∀ n ∈ inner, n.LaidOut) :
    s.Makes (Matcher.reduceChoice (inner.map (·.tree)))
      (s.mergeSegments (segments (·.tree.isSingleChar) (inner.flatMap alternatives))).1
      (s.mergeSegments (segments (·.tree.isSingleChar) (inner.flatMap alternatives))).2 := by
  have trees : (inner.flatMap alternatives).map (·.tree) =
      (inner.map (·.tree)).flatMap Matcher.alternatives := by
    rw [List.map_flatMap, List.flatMap_map]
    exact List.flatMap_congr fun n hn => tree_alternatives (laidOut n hn)
  have made := s.makes_mergeSegments
    (segments (·.tree.isSingleChar) (inner.flatMap alternatives)) fun a ha => by
    rw [flatMap_members_segments] at ha
    obtain ⟨n, hn, inside⟩ := List.mem_flatMap.mp ha
    exact laidOut_of_mem_alternatives (laidOut n hn) inside
  rw [← segments_map, trees] at made
  exact made

/-! ## Nodes that are worked on -/

/-- What becomes of a node when those below it have become `inner`. -/
def remake (n : Shared π) (inner : List (Shared π)) (s : Session π) : Shared π × Session π :=
  match n.tree with
  | .choice _ => reduceChoice n.id (inner, s)
  | .optional _ => reduceOptional (inner.headD default, s)
  | tree => s.fresh (tree.withChildren (inner.map (·.tree))) (inner.map (·.labels))

/-- The node has become one for the optimized form of its tree, and that is all there is to
tell, unless it was a choice. -/
structure Remade (n : Shared π) (s : Session π) (made : Shared π × Session π) : Prop where
  tree : made.1.tree = n.tree.optimize
  laidOut : made.1.LaidOut
  results : made.2.results = s.results
  reductions : made.2.reductions = s.reductions ++ (Reduction.of? n).toList

theorem Makes.remade {made : Shared π × Session π} (h : s.Makes [n.tree.optimize] [made.1] made.2)
    (none : Reduction.of? n = none) : Remade n s made :=
  ⟨(List.cons.inj h.trees).1, h.laidOut _ List.mem_cons_self, h.results, by
    rw [none, h.reductions, Option.toList_none, List.append_nil]⟩

theorem remade_choice (s : Session π) {ms : List (Matcher π)} (choice : n.tree = .choice ms)
    (trees : inner.map (·.tree) = ms.map Matcher.optimize) (laidOut : ∀ c ∈ inner, c.LaidOut) :
    Remade n s (reduceChoice n.id (inner, s)) := by
  have made := s.makes_alternatives laidOut
  rw [trees] at made
  obtain ⟨nodes, s', merged⟩ : ∃ nodes s', s.mergeSegments
      (segments (·.tree.isSingleChar) (inner.flatMap alternatives)) = (nodes, s') := ⟨_, _, rfl⟩
  rw [merged] at made
  have size : inner.length = ms.length := by
    rw [← List.length_map (·.tree), trees, List.length_map]
  have after : nodes.length = (Matcher.reduceChoice (ms.map Matcher.optimize)).length := by
    rw [← made.trees, List.length_map]
  have note : (Reduction.of? n).toList = [⟨n.id, inner.length, nodes.length⟩] := by
    rw [Reduction.of?, choice, size, after]
    rfl
  have optimized : n.tree.optimize = Matcher.choiceOf (nodes.map (·.tree)) := by
    rw [choice, Matcher.optimize, Matcher.optimizeAll_eq_map, made.trees]
  unfold reduceChoice
  simp only [merged]
  split
  · next only =>
    have copied := (s'.note ⟨n.id, inner.length, 1⟩).makes_duplicate
      (made.laidOut _ List.mem_cons_self)
    refine ⟨?_, copied.laidOut _ List.mem_cons_self, made.results, ?_⟩
    · rw [optimized]
      rfl
    · rw [note]
      exact congrArg (· ++ _) made.reductions
  · next several =>
    have fresh := (s'.note ⟨n.id, inner.length, nodes.length⟩).makes_fresh
      (.choice (nodes.map (·.tree))) nodes rfl made.laidOut
    refine ⟨?_, fresh.laidOut _ List.mem_cons_self, made.results, ?_⟩
    · rw [optimized, Matcher.choiceOf.eq_2 _ fun m single => ?_]
      · rfl
      · obtain ⟨only, rfl, _⟩ := List.map_eq_singleton_iff.mp single
        exact several only rfl
    · rw [note]
      exact congrArg (· ++ _) made.reductions

theorem makes_optional (s : Session π) (laidOut : n.LaidOut) :
    s.Makes [Matcher.optionalOf n.tree] [(reduceOptional (n, s)).1] (reduceOptional (n, s)).2 := by
  unfold reduceOptional
  simp only
  split
  · next m optional =>
    have copied := s.makes_duplicate laidOut
    rw [optional] at copied ⊢
    exact copied
  · next once =>
    rw [Matcher.optionalOf.eq_2 _ once]
    exact s.makes_fresh _ [n] rfl (List.forall_mem_singleton.mpr laidOut)

theorem remade_remake (s : Session π)
    (trees : inner.map (·.tree) = n.tree.children.map Matcher.optimize)
    (laidOut : ∀ c ∈ inner, c.LaidOut) : Remade n s (remake n inner s) := by
  unfold remake
  split
  · next choice =>
    refine s.remade_choice choice ?_ laidOut
    rw [trees, choice]
    rfl
  · next m optional =>
    rw [optional] at trees
    obtain ⟨c, rfl, same⟩ := List.map_eq_singleton_iff.mp trees
    have made := s.makes_optional (laidOut c List.mem_cons_self)
    refine Makes.remade ?_ ?_
    · rw [optional, Matcher.optimize, ← same]
      exact made
    · rw [Reduction.of?, optional]
  · next noChoice notOptional =>
    have same : (n.tree.withChildren (inner.map (·.tree))).children = inner.map (·.tree) :=
      Matcher.children_withChildren (by rw [trees, List.length_map])
    refine Makes.remade ?_ ?_
    · rw [Matcher.optimize_eq_withChildren noChoice notOptional, ← trees]
      exact s.makes_fresh _ _ same laidOut
    · unfold Reduction.of?
      split
      · next choice => exact absurd choice (noChoice _)
      · rfl

/-- Several trees are visited as the nodes that they are. -/
theorem visitAll_eq (s : Session π) {ms : List (Matcher π)} {labels : List Labels}
    (size : labels.length = ms.length) :
    s.visitAll ms labels = s.optimizeAll (ms.zipWith Shared.mk labels) := by
  induction ms generalizing s labels with
  | nil => rfl
  | cons m ms ih =>
    obtain ⟨l, labels, rfl⟩ := List.exists_cons_of_length_eq_add_one size
    have rest := ih (s.visit m l).2 (Nat.succ.inj size)
    exact congrArg (fun p => ((s.visit m l).1 :: p.1, p.2)) rest

theorem optimize_eq (s : Session π) (fits : n.Fits) :
    s.optimize n = s.once n.id fun s =>
      remake n (s.optimizeAll n.children).1 (s.optimizeAll n.children).2 := by
  obtain ⟨m, labels⟩ := n
  cases m with
  | sequence ms | choice ms =>
    rw [optimize, visit]
    refine congrArg (s.once _) (funext fun s => ?_)
    have below : s.visitAll ms labels.inner = s.optimizeAll (ms.zipWith Shared.mk labels.inner) :=
      s.visitAll_eq fits
    rw [below]
    rfl
  | repetition m | optional m | absent m | rule _ m | ignore m | join m | mark m | save _ m =>
    obtain ⟨id, inner⟩ := labels
    obtain ⟨l, rfl⟩ := List.length_eq_one_iff.mp fits
    rfl
  | char | text | endOfInput | ref | load =>
    obtain ⟨id, inner⟩ := labels
    obtain rfl := List.eq_nil_of_length_eq_zero fits
    rfl

/-! ## What a session has worked on -/

/-- What is kept for a node. -/
structure Kept (n : Shared π) (entry : Nat × Shared π) : Prop where
  number : entry.1 = n.id
  tree : entry.2.tree = n.tree.optimize
  laidOut : entry.2.LaidOut

/-- The session has worked on the nodes `done`, the latest first, each once and behind those
below it. -/
structure Worked (s : Session π) (done : List (Shared π)) : Prop where
  stacked : Shared.Stacked done
  kept : List.Forall₂ Kept done s.results
  noted : s.reductions = done.reverse.filterMap Reduction.of?

variable {done todo new results : List (Shared π)}

theorem worked_start : (start : Session π).Worked [] := ⟨.nil, .nil, rfl⟩

/-- A note splits the nodes into those worked on before and after the one it is about. What is
noted of the earlier ones comes before it. -/
theorem Worked.split_of_noted (h : s.Worked done) {before after : List Reduction} {r : Reduction}
    (noted : s.reductions = before ++ r :: after) :
    ∃ n earlier later, done = later ++ n :: earlier ∧ Reduction.of? n = some r ∧
      ∀ c ∈ earlier, ∀ r', Reduction.of? c = some r' → r' ∈ before := by
  rw [h.noted] at noted
  obtain ⟨first, others, split, rfl, rest⟩ := List.filterMap_eq_append_iff.mp noted
  obtain ⟨silent, n, last, rfl, quiet, hn, rfl⟩ := List.filterMap_eq_cons_iff.mp rest
  refine ⟨n, (first ++ silent).reverse, last.reverse, ?_, hn, fun c hc r' hr' => ?_⟩
  · rw [← List.reverse_inj, split]
    simp
  · rw [List.mem_reverse, List.mem_append] at hc
    rcases hc with hc | hc
    · exact List.mem_filterMap.mpr ⟨c, hc, hr'⟩
    · rw [quiet c hc] at hr'
      cases hr'

theorem exists_of_lookup {entries : List (Nat × Shared π)} (h : List.Forall₂ Kept done entries)
    {id : Nat} {r : Shared π} (found : entries.lookup id = some r) :
    ∃ n ∈ done, n.id = id ∧ Kept n (id, r) := by
  induction h with
  | nil => cases found
  | @cons n entry ns rest kept _ ih =>
    obtain ⟨number, tree⟩ := entry
    rw [List.lookup_cons] at found
    split at found
    · next same =>
      cases found
      obtain rfl : id = number := by simpa using same
      exact ⟨n, List.mem_cons_self, kept.number.symm, kept⟩
    · obtain ⟨n, hn, kept⟩ := ih found
      exact ⟨n, List.mem_cons_of_mem _ hn, kept⟩

theorem not_mem_of_lookup {entries : List (Nat × Shared π)} (h : List.Forall₂ Kept done entries)
    {id : Nat} (missing : entries.lookup id = none) : id ∉ done.map (·.id) := by
  induction h with
  | nil => exact List.not_mem_nil
  | @cons n entry ns rest kept _ ih =>
    obtain ⟨number, tree⟩ := entry
    rw [List.lookup_cons] at missing
    split at missing
    · cases missing
    · next other =>
      have apart : id ≠ n.id := kept.number ▸ by simpa using other
      rw [List.map_cons, List.mem_cons, not_or]
      exact ⟨apart, ih missing⟩

/-- The session has worked off `todo` and given `results`. Before it had worked on `done`, and
`new` has come in addition. -/
structure WorksOff (todo done new results : List (Shared π)) (s : Session π) : Prop where
  worked : s.Worked (new ++ done)
  below : ∀ n ∈ new, Shared.Within todo n
  complete : todo ⊆ new ++ done
  trees : results.map (·.tree) = todo.map (·.tree.optimize)
  laidOut : ∀ r ∈ results, r.LaidOut

theorem WorksOff.nil (h : s.Worked done) : WorksOff [] done [] [] s :=
  ⟨h, nofun, List.nil_subset _, rfl, nofun⟩

theorem WorksOff.cons {first second : List (Shared π)} {r : Shared π}
    (head : WorksOff [n] done first [r] s) (tail : WorksOff todo (first ++ done) second results s') :
    WorksOff (n :: todo) done (second ++ first) (r :: results) s' := by
  have onTop : second ++ first ++ done = second ++ (first ++ done) := List.append_assoc ..
  refine ⟨onTop ▸ tail.worked, fun m hm => ?_, ?_, ?_, ?_⟩
  · rcases List.mem_append.mp hm with later | earlier
    · obtain ⟨top, member, reached⟩ := tail.below m later
      exact ⟨top, List.mem_cons_of_mem _ member, reached⟩
    · obtain ⟨top, member, reached⟩ := head.below m earlier
      exact ⟨top, List.mem_cons.mpr (.inl (List.mem_singleton.mp member)), reached⟩
  · rw [onTop]
    exact List.cons_subset.mpr
      ⟨List.mem_append_right _ (head.complete List.mem_cons_self), tail.complete⟩
  · exact congrArg₂ List.cons (List.cons.inj head.trees).1 tail.trees
  · exact List.forall_mem_cons.mpr ⟨head.laidOut r List.mem_cons_self, tail.laidOut⟩

/-- A node that was worked on before is given out as it was then. -/
theorem WorksOff.again {roots : List (Shared π)} (coherent : Shared.Coherent roots)
    (h : s.Worked done) (inside : ∀ d ∈ done, Shared.Within roots d) (hn : Shared.Within roots n)
    {r : Shared π} (found : s.results.lookup n.id = some r) : WorksOff [n] done [] [r] s := by
  obtain ⟨d, hd, same, kept⟩ := exists_of_lookup h.kept found
  obtain rfl : d = n := coherent.same d n (inside d hd) hn same
  exact ⟨h, nofun, List.cons_subset.mpr ⟨hd, List.nil_subset _⟩, congrArg (fun t => [t]) kept.tree,
    List.forall_mem_singleton.mpr kept.laidOut⟩

/-- A node that is new is worked on behind those below it. -/
theorem WorksOff.above {roots : List (Shared π)} (coherent : Shared.Coherent roots)
    (hn : Shared.Within roots n) (missing : n.id ∉ done.map (·.id))
    (below : WorksOff n.children done new inner s)
    {made : Shared π × Session π} (remade : Remade n s made) :
    WorksOff [n] done (n :: new) [made.1]
      { made.2 with results := (n.id, made.1) :: made.2.results } := by
  have under : ∀ d ∈ new, n.Above d := fun d hd => by
    obtain ⟨c, hc, reached⟩ := below.below d hd
    exact Relation.TransGen.head'_iff.mpr ⟨c, hc, reached⟩
  have fresh : n.id ∉ (new ++ done).map (·.id) := fun member => by
    obtain ⟨d, hd, same⟩ := List.mem_map.mp member
    rcases List.mem_append.mp hd with later | earlier
    · have within := hn.reaches (under d later).to_reflTransGen
      exact (under d later).ne (coherent.same d n within hn same)
    · exact missing (List.mem_map.mpr ⟨d, earlier, same⟩)
  refine ⟨⟨?_, ?_, ?_⟩, ?_, ?_, ?_, ?_⟩
  · exact .cons below.worked.stacked (coherent.laidOut_of_within hn).fits below.complete fresh
  · exact .cons ⟨rfl, remade.tree, remade.laidOut⟩ (remade.results ▸ below.worked.kept)
  · have last : [n].filterMap Reduction.of? = (Reduction.of? n).toList := by
      cases note : Reduction.of? n <;> simp [note]
    rw [remade.reductions, below.worked.noted, List.cons_append, List.reverse_cons,
      List.filterMap_append, last]
  · exact List.forall_mem_cons.mpr ⟨.of_mem List.mem_cons_self, fun d hd =>
      ⟨n, List.mem_cons_self, (under d hd).to_reflTransGen⟩⟩
  · exact List.cons_subset.mpr ⟨List.mem_cons_self, List.nil_subset _⟩
  · exact congrArg (fun t => [t]) remade.tree
  · exact List.forall_mem_singleton.mpr remade.laidOut

/-- Working off several nodes, if it goes as told for each of them. -/
theorem worksOff_optimizeAll {roots : List (Shared π)}
    (each : ∀ n ∈ todo, ∀ (s : Session π) (done : List (Shared π)), s.Worked done →
      (∀ d ∈ done, Shared.Within roots d) →
      ∃ new, WorksOff [n] done new [(s.optimize n).1] (s.optimize n).2)
    (inside : ∀ n ∈ todo, Shared.Within roots n) (h : s.Worked done)
    (before : ∀ d ∈ done, Shared.Within roots d) :
    ∃ new, WorksOff todo done new (s.optimizeAll todo).1 (s.optimizeAll todo).2 := by
  induction todo generalizing s done with
  | nil => exact ⟨[], .nil h⟩
  | cons n todo ih =>
    obtain ⟨hn, others⟩ := List.forall_mem_cons.mp inside
    obtain ⟨first, head⟩ := each n List.mem_cons_self s done h before
    have between : ∀ d ∈ first ++ done, Shared.Within roots d := fun d hd => by
      rcases List.mem_append.mp hd with later | earlier
      · obtain ⟨top, member, reached⟩ := head.below d later
        exact hn.reaches (List.mem_singleton.mp member ▸ reached)
      · exact before d earlier
    obtain ⟨second, tail⟩ := ih (fun n hn => each n (List.mem_cons_of_mem _ hn)) others
      head.worked between
    exact ⟨second ++ first, head.cons tail⟩

/-- Whatever a session has worked on before, it gives for a node what optimizing its tree
would give, and has then worked on what lies below it. -/
theorem worksOff_optimize {roots : List (Shared π)} (coherent : Shared.Coherent roots)
    (hn : Shared.Within roots n) (h : s.Worked done)
    (before : ∀ d ∈ done, Shared.Within roots d) :
    ∃ new, WorksOff [n] done new [(s.optimize n).1] (s.optimize n).2 := by
  induction tree : n.tree using Matcher.induct_children generalizing n s done with
  | step m ih =>
    subst tree
    rw [optimize_eq s (coherent.laidOut_of_within hn).fits, once]
    cases found : s.results.lookup n.id with
    | some r => exact ⟨[], .again coherent h before hn found⟩
    | none =>
      have inside : ∀ c ∈ n.children, Shared.Within roots c := fun c hc => hn.reaches (.single hc)
      obtain ⟨new, below⟩ := worksOff_optimizeAll (fun c hc s done worked before =>
        ih c.tree (Shared.mem_children_tree hc) (inside c hc) worked before rfl) inside h before
      have trees : (s.optimizeAll n.children).1.map (·.tree) =
          n.tree.children.map Matcher.optimize := by
        rw [below.trees, ← (coherent.laidOut_of_within hn).fits.trees, List.map_map]
        rfl
      have missing := not_mem_of_lookup h.kept found
      exact ⟨n :: new, below.above coherent hn missing (remade_remake _ trees below.laidOut)⟩

/-- Optimizing the nodes of a list one after the other gives trees that have nothing to do with
what was kept: each is that of a session of its own and the optimized form of the tree. Over
the whole session every choice among the nodes is noted, by its number, exactly once, with
how many children it has and how many alternatives they have become. What is noted of a choice
comes behind what is noted of all choices below it. -/
theorem optimizeAll_invisible {nodes : List (Shared π)} (coherent : Shared.Coherent nodes) :
    let results := ((start : Session π).optimizeAll nodes).1
    let s := ((start : Session π).optimizeAll nodes).2
    results.map (·.tree) = nodes.map (fun n => ((start : Session π).optimize n).1.tree) ∧
    results.map (·.tree) = nodes.map (·.tree.optimize) ∧
    (s.reductions.map (·.node)).Nodup ∧
    (∀ r, r ∈ s.reductions ↔ ∃ n, Shared.Within nodes n ∧ Reduction.of? n = some r) ∧
    ∀ before r after, s.reductions = before ++ r :: after →
      ∀ n c, Shared.Within nodes n → Reduction.of? n = some r → n.Above c →
        ∀ r', Reduction.of? c = some r' → r' ∈ before := by
  intro results s
  obtain ⟨done, all⟩ := worksOff_optimizeAll
    (fun n hn s done worked => worksOff_optimize coherent (.of_mem hn) worked)
    (fun n hn => .of_mem hn) worked_start nofun
  have worked : s.Worked done := List.append_nil done ▸ all.worked
  have alone : ∀ n ∈ nodes, ((start : Session π).optimize n).1.tree = n.tree.optimize := by
    intro n hn
    obtain ⟨new, one⟩ := worksOff_optimize coherent (.of_mem hn) worked_start nofun
    exact (List.cons.inj one.trees).1
  have mem_done : ∀ n, n ∈ done ↔ Shared.Within nodes n := fun n =>
    ⟨all.below n, fun ⟨r, hr, reached⟩ =>
      worked.stacked.mem_of_reaches (List.append_nil done ▸ all.complete hr) reached⟩
  refine ⟨?_, all.trees, ?_, fun r => ?_, fun before r after noted n c hn hr below r' hr' => ?_⟩
  · rw [all.trees]
    exact List.map_congr_left fun n hn => (alone n hn).symm
  · rw [worked.noted]
    refine (Reduction.sublist_nodes done.reverse).nodup ?_
    rw [List.map_reverse, List.nodup_reverse]
    exact worked.stacked.nodup
  · rw [worked.noted, List.mem_filterMap]
    simp only [List.mem_reverse, mem_done]
  · obtain ⟨m, earlier, later, order, hm, quiet⟩ := worked.split_of_noted noted
    have same : m = n := by
      refine coherent.same m n ((mem_done m).mp (order ▸ by simp)) hn ?_
      rw [← Reduction.node_of? hm, Reduction.node_of? hr]
    subst same
    have stacked := worked.stacked
    rw [order] at stacked
    exact quiet c (stacked.mem_of_above below) r' hr'

/-- The letters are in three of the trees that one interner has met, twice in the first. Their
two choices are noted once, the inner one first, and then the choice above them. -/
theorem invisible_shared_letters :
    let letters : Matcher Empty :=
      .choice [.char (.only 'c'), .choice [.char (.only 'a'), .char (.only 'b')]]
    let nodes := ((Interner.empty : Interner Empty).internAll
      [.sequence [letters, .optional letters], .choice [.text ['x', 'y'], letters], letters]).1
    let results := ((start : Session Empty).optimizeAll nodes).1
    let s := ((start : Session Empty).optimizeAll nodes).2
    Shared.Coherent nodes ∧ s.reductions = [⟨3, 2, 1⟩, ⟨4, 2, 2⟩, ⟨8, 2, 3⟩] ∧
      results.map (·.tree) = nodes.map (fun n => ((start : Session Empty).optimize n).1.tree) ∧
      results.map (·.tree) = nodes.map (·.tree.optimize) ∧ (s.reductions.map (·.node)).Nodup ∧
      ∀ r, r ∈ s.reductions ↔ ∃ n, Shared.Within nodes n ∧ Reduction.of? n = some r := by
  intro letters nodes results s
  have coherent : Shared.Coherent nodes := Interner.coherent_internAll _
  obtain ⟨fresh, optimized, once, noted, _⟩ := optimizeAll_invisible coherent
  exact ⟨coherent, by decide, fresh, optimized, once, noted⟩

end Session

end Peg
