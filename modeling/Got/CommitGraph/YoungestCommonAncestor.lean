import Got.Lib.LockStep
import Got.CommitGraph.Root

/-!
# The youngest common ancestor

The common ancestor that is looked for is on the first-parent chains of both commits.
The two chains are traversed in lock step, and one set has the commits of both. The
first commit that is in the set already is the first on either chain that is on
the other as well, because from there on the chains are the same
(`exists_common_tail`). If there is none, both traversals come to their end.
-/

namespace Got

variable {ι : Type} [LinearOrder ι]

namespace CommitGraph

/-- The next commit of a traversal which is not completed yet. -/
def nextCommit (repo : Repository ι) (fuel : ℕ) (graph : CommitGraph ι) (completed : Bool) :
    Except GotErr (Option ι × Bool × CommitGraph ι) :=
  if completed then .ok (none, true, graph)
  else
    match gotCommitGraphIterNext repo fuel graph with
    | .error .iterCompleted => .ok (none, true, graph)
    | .error e => .error e
    | .ok (id, graph) => .ok (some id, false, graph)

/-- Look for a commit in the set, and add it if it is not there: the commit or the
new set. -/
def noteCommit (commitIds : ObjectIdset ι) : Option ι → Except GotErr (ι ⊕ ObjectIdset ι)
  | none => .ok (.inr commitIds)
  | some id =>
    if commitIds.contains id then .ok (.inl id)
    else do
      let commitIds ← commitIds.add id
      return .inr commitIds

/-- The loop of `got_commit_graph_find_youngest_common_ancestor`. -/
def findYcaLoop (repo : Repository ι) (fuel : ℕ) (graph graph2 : CommitGraph ι)
    (completed completed2 : Bool) (commitIds : ObjectIdset ι) : ℕ → Except GotErr ι
  | 0 => .error .fuel
  | n + 1 => do
    let (id, completed, graph) ← nextCommit repo fuel graph completed
    let (id2, completed2, graph2) ← nextCommit repo fuel graph2 completed2
    match ← noteCommit commitIds id with
    | .inl yca => .ok yca
    | .inr commitIds =>
      match ← noteCommit commitIds id2 with
      | .inl yca => .ok yca
      | .inr commitIds =>
        if completed && completed2 then .error .ancestry
        else findYcaLoop repo fuel graph graph2 completed completed2 commitIds n

/-- **`got_commit_graph_find_youngest_common_ancestor`** -/
def gotCommitGraphFindYoungestCommonAncestor (repo : Repository ι) (fuel : ℕ)
    (commitId commitId2 : ι) : Except GotErr ι := do
  let graph ← gotCommitGraphIterStart repo fuel (gotCommitGraphOpen [] true) commitId
  let graph2 ← gotCommitGraphIterStart repo fuel (gotCommitGraphOpen [] true) commitId2
  findYcaLoop repo fuel graph graph2 false false .alloc fuel

end CommitGraph

/-! ## Chains that meet -/

namespace Repository

variable {repo : Repository ι} {commitId commitId2 x : ι} {chain chain2 : List ι}

omit [LinearOrder ι] in
/-- What comes behind a commit of a chain is its own chain. -/
theorem FirstParentChain.split (h : repo.FirstParentChain commitId chain) (hx : x ∈ chain) :
    ∃ before rest, chain = before ++ rest ∧ repo.FirstParentChain x rest := by
  induction h with
  | root hopen hparents =>
    obtain rfl := List.mem_singleton.mp hx
    exact ⟨[], _, rfl, .root hopen hparents⟩
  | @cons commitId pid commit parents chain hopen hparents hchain ih =>
    rcases List.mem_cons.mp hx with rfl | hx
    · exact ⟨[], _, rfl, .cons hopen hparents hchain⟩
    · obtain ⟨before, rest, rfl, hrest⟩ := ih hx
      exact ⟨commitId :: before, rest, rfl, hrest⟩

/-- **Two chains have a common tail**, and nothing else in common. -/
theorem exists_common_tail (h : repo.FirstParentChain commitId chain)
    (h2 : repo.FirstParentChain commitId2 chain2) :
    ∃ a b s, chain = a ++ s ∧ chain2 = b ++ s ∧ a.Disjoint b := by
  induction h with
  | @root commitId commit hopen hparents =>
    by_cases hmem : commitId ∈ chain2
    · obtain ⟨b, s, rfl, hs⟩ := h2.split hmem
      obtain rfl := hs.unique (.root hopen hparents)
      exact ⟨[], b, [commitId], rfl, rfl, List.disjoint_nil_left b⟩
    · exact ⟨[commitId], chain2, [], rfl, (List.append_nil _).symm,
        List.singleton_disjoint.mpr hmem⟩
  | @cons commitId pid commit parents chain hopen hparents hchain ih =>
    by_cases hmem : commitId ∈ chain2
    · obtain ⟨b, s, rfl, hs⟩ := h2.split hmem
      obtain rfl := hs.unique (.cons hopen hparents hchain)
      exact ⟨[], b, _, rfl, rfl, List.disjoint_nil_left b⟩
    · obtain ⟨a, b, s, rfl, rfl, hdisjoint⟩ := ih
      exact ⟨commitId :: a, b, s, rfl, rfl,
        List.disjoint_cons_left.mpr ⟨fun hb => hmem (List.mem_append_left s hb), hdisjoint⟩⟩

end Repository

/-! ## The search -/

namespace CommitGraph

open LockStep

variable {repo : Repository ι} {fuel n : ℕ} {ids : Finset ι} {graph graph2 : CommitGraph ι}
  {completed completed2 : Bool} {commitIds : ObjectIdset ι} {rest rest2 seen : List ι}

/-- What is left of a traversal that may be completed. -/
def Left (repo : Repository ι) (graph : CommitGraph ι) (completed : Bool) (rest : List ι) : Prop :=
  if completed then rest = [] else Remaining repo graph rest

/-- `next_commit` answers the next commit of the chain and is complete when none is left. -/
theorem nextCommit_spec (hfuel : 2 ≤ fuel) (h : Left repo graph completed rest) :
    ∃ completed' graph', nextCommit repo fuel graph completed
        = .ok (rest.head?, completed', graph')
      ∧ Left repo graph' completed' rest.tail ∧ (completed' = true ↔ rest = []) := by
  unfold nextCommit
  cases completed with
  | true =>
    obtain rfl : rest = [] := h
    exact ⟨true, graph, rfl, rfl, by simp⟩
  | false =>
    have h : Remaining repo graph rest := h
    rw [if_neg Bool.false_ne_true]
    cases rest with
    | nil =>
      rw [iterNext_completed h]
      exact ⟨true, graph, rfl, rfl, by simp⟩
    | cons id rest =>
      obtain ⟨graph', hnext, h'⟩ := iterNext_firstParent hfuel h
      rw [hnext]
      exact ⟨false, graph', rfl, h', by simp⟩

/-- What the set has to be: the commits that were seen, which are of the
history. -/
structure Noted (ids : Finset ι) (commitIds : ObjectIdset ι) (seen : List ι) : Prop where
  counted : commitIds.Counted
  mem_iff : ∀ x, x ∈ commitIds ↔ x ∈ seen
  sub : ∀ x ∈ seen, x ∈ ids

theorem noteCommit_found (h : Noted ids commitIds seen) {x : ι} (hx : x ∈ seen) :
    noteCommit commitIds (some x) = .ok (.inl x) := by
  rw [noteCommit, if_pos (ObjectIdset.contains_iff.mpr ((h.mem_iff x).mpr hx))]

/-- Noting a commit that was not seen adds it to the set of those that were. -/
theorem noteCommit_new (hroom : ids.card ≤ GOT_OBJECT_IDSET_MAX_ELEM)
    (h : Noted ids commitIds seen) {o : Option ι} (hids : ∀ x ∈ o, x ∈ ids)
    (hnew : ∀ x ∈ o, x ∉ seen) : ∃ commitIds', noteCommit commitIds o = .ok (.inr commitIds')
      ∧ Noted ids commitIds' (o.toList ++ seen) := by
  cases o with
  | none => exact ⟨commitIds, rfl, h⟩
  | some x =>
    have hx : x ∉ commitIds := mt (h.mem_iff x).mp (hnew x rfl)
    obtain ⟨commitIds', hadd⟩ := ObjectIdset.exists_add_of_subset h.counted
      (fun y hy => h.sub y ((h.mem_iff y).mp hy)) (hids x rfl) hx hroom
    refine ⟨commitIds', ?_, h.counted.add hadd hx, fun y => ?_, fun y hy => ?_⟩
    · rw [noteCommit, if_neg (mt ObjectIdset.contains_iff.mp hx), hadd]
      rfl
    · rw [ObjectIdset.mem_add hadd, h.mem_iff, Option.toList_some, List.singleton_append,
        List.mem_cons]
    · rcases List.mem_cons.mp hy with rfl | hy
      · exact hids y rfl
      · exact h.sub y hy

/-- **The loop is the search in lock step**, on what is left of the two
chains. -/
theorem findYcaLoop_eq (hroom : ids.card ≤ GOT_OBJECT_IDSET_MAX_ELEM) (hfuel : 2 ≤ fuel)
    (h : Left repo graph completed rest) (h2 : Left repo graph2 completed2 rest2)
    (hnoted : Noted ids commitIds seen) (hrest : ∀ x ∈ rest, x ∈ ids)
    (hrest2 : ∀ x ∈ rest2, x ∈ ids) (hn : rest.length < n) (hn2 : rest2.length < n) :
    findYcaLoop repo fuel graph graph2 completed completed2 commitIds n
      = match lockStep n rest rest2 seen with
        | some x => .ok x
        | none => .error .ancestry := by
  induction n generalizing graph graph2 completed completed2 commitIds rest rest2 seen with
  | zero => exact absurd hn (Nat.not_lt_zero _)
  | succ n ih =>
    obtain ⟨done, graph₁, hnext, h₁, hdone⟩ := nextCommit_spec hfuel h
    obtain ⟨done2, graph₂, hnext2, h₂, hdone2⟩ := nextCommit_spec hfuel h2
    have hids : ∀ x ∈ rest.head?, x ∈ ids := fun x hx => hrest x (List.mem_of_mem_head? hx)
    have hids2 : ∀ x ∈ rest2.head?, x ∈ ids := fun x hx => hrest2 x (List.mem_of_mem_head? hx)
    rw [findYcaLoop, hnext, ok_bind]
    dsimp only
    rw [hnext2, ok_bind]
    dsimp only
    by_cases hfound : ∃ x ∈ rest.head?, x ∈ seen
    · -- the commit of the first chain was seen
      obtain ⟨x, hx, hseen⟩ := hfound
      obtain ⟨tail, rfl⟩ := List.head?_eq_some_iff.mp hx
      rw [List.head?_cons, noteCommit_found hnoted hseen, lockStep_left hseen]
      rfl
    have hnew : ∀ x ∈ rest.head?, x ∉ seen := fun x hx hseen => hfound ⟨x, hx, hseen⟩
    obtain ⟨commitIds₁, hnote, hnoted₁⟩ := noteCommit_new hroom hnoted hids hnew
    rw [hnote, ok_bind]
    dsimp only
    by_cases hfound2 : ∃ y ∈ rest2.head?, y ∈ rest.head?.toList ++ seen
    · -- the commit of the second chain was seen
      obtain ⟨y, hy, hseen⟩ := hfound2
      obtain ⟨tail, rfl⟩ := List.head?_eq_some_iff.mp hy
      rw [List.head?_cons, noteCommit_found hnoted₁ hseen, lockStep_right hnew hseen]
      rfl
    have hnew2 : ∀ y ∈ rest2.head?, y ∉ rest.head?.toList ++ seen := fun y hy hseen =>
      hfound2 ⟨y, hy, hseen⟩
    obtain ⟨commitIds₂, hnote2, hnoted₂⟩ := noteCommit_new hroom hnoted₁ hids2 hnew2
    rw [hnote2, ok_bind, lockStep_new hnew hnew2]
    dsimp only
    by_cases hboth : rest = [] ∧ rest2 = []
    · -- both chains are at their end
      obtain ⟨rfl, rfl⟩ := hboth
      rw [hdone.mpr rfl, hdone2.mpr rfl, List.tail_nil, lockStep_nil]
      rfl
    · have hmore : ¬(done && done2) = true := fun hb => by
        rw [Bool.and_eq_true, hdone, hdone2] at hb
        exact hboth hb
      have hpos : 0 < rest.length + rest2.length := by
        refine Nat.pos_of_ne_zero fun h0 => hboth ⟨?_, ?_⟩
        · exact List.eq_nil_of_length_eq_zero (by omega)
        · exact List.eq_nil_of_length_eq_zero (by omega)
      rw [if_neg hmore]
      exact ih h₁ h₂ hnoted₂ (fun x hx => hrest x (List.mem_of_mem_tail hx))
        (fun x hx => hrest2 x (List.mem_of_mem_tail hx))
        (by rw [List.length_tail]; omega) (by rw [List.length_tail]; omega)

open Repository in
/-- **The youngest common ancestor** of two commits is the first commit on the
first-parent chain of either one that is on the chain of the other one, and the
error is returned if the chains are disjoint. -/
theorem youngestCommonAncestor_spec {commitId commitId2 : ι} (hcomplete : repo.Complete ids)
    (hacyclic : repo.Acyclic) (hid : commitId ∈ ids) (hid2 : commitId2 ∈ ids)
    (hroom : ids.card ≤ GOT_OBJECT_IDSET_MAX_ELEM) (hfuel : ids.card + 2 ≤ fuel) :
    ∃ chain chain2, repo.FirstParentChain commitId chain
      ∧ repo.FirstParentChain commitId2 chain2
      ∧ chain.find? (· ∈ chain2) = chain2.find? (· ∈ chain)
      ∧ (∀ x, gotCommitGraphFindYoungestCommonAncestor repo fuel commitId commitId2 = .ok x
        ↔ chain.find? (· ∈ chain2) = some x)
      ∧ (gotCommitGraphFindYoungestCommonAncestor repo fuel commitId commitId2 = .error .ancestry
        ↔ chain.Disjoint chain2) := by
  obtain ⟨chain, hchain⟩ := exists_firstParentChain hcomplete hacyclic hid
  obtain ⟨chain2, hchain2⟩ := exists_firstParentChain hcomplete hacyclic hid2
  have hlen := hchain.length_le hcomplete hacyclic hid
  have hlen2 := hchain2.length_le hcomplete hacyclic hid2
  have hnodup := hchain.nodup hacyclic
  have hnodup2 := hchain2.nodup hacyclic
  obtain ⟨graph, hstart, hleft⟩ := iterStart_firstParent (by omega : 2 ≤ fuel) hchain
    (hlen.trans hroom)
  obtain ⟨graph2, hstart2, hleft2⟩ := iterStart_firstParent (by omega : 2 ≤ fuel) hchain2
    (hlen2.trans hroom)
  have hloop := @findYcaLoop_eq ι _ repo fuel fuel ids graph graph2 false false .alloc chain chain2
    [] hroom (by omega) hleft hleft2 ⟨ObjectIdset.counted_alloc, fun x => Iff.rfl,
      fun x hx => absurd hx List.not_mem_nil⟩
    (fun x hx => hcomplete.reaches hid (hchain.reaches x hx))
    (fun x hx => hcomplete.reaches hid2 (hchain2.reaches x hx)) (by omega) (by omega)
  have hfind : gotCommitGraphFindYoungestCommonAncestor repo fuel commitId commitId2
      = match lockStep fuel chain chain2 [] with
        | some x => .ok x
        | none => .error .ancestry := by
    rw [← hloop, gotCommitGraphFindYoungestCommonAncestor, hstart, ok_bind, hstart2]
    rfl
  refine ⟨chain, chain2, hchain, hchain2, ?_⟩
  obtain ⟨a, b, s, rfl, rfl, hdisjoint⟩ := exists_common_tail hchain hchain2
  have hab : (a ++ b ++ s).Nodup := nodup_append_append hnodup hnodup2 hdisjoint
  have hba : (b ++ a ++ s).Nodup := nodup_append_append hnodup2 hnodup hdisjoint.symm
  rw [List.length_append] at hlen hlen2
  rw [lockStep_eq hab (by omega) (by omega)] at hfind
  rw [find?_eq hab, find?_eq hba, hfind]
  refine ⟨rfl, fun x => ?_, ?_⟩
  · cases s with
    | nil => exact ⟨fun h => (nomatch h), fun h => (nomatch h)⟩
    | cons y s =>
      exact ⟨fun h => congrArg some (Except.ok.inj h),
        fun h => congrArg Except.ok (Option.some.inj h)⟩
  · cases s with
    | nil =>
      rw [List.append_nil, List.append_nil]
      exact ⟨fun _ => hdisjoint, fun _ => rfl⟩
    | cons y s =>
      refine ⟨fun h => (nomatch h), fun h => ?_⟩
      exact absurd (List.mem_append_right b List.mem_cons_self)
        (h (List.mem_append_right a List.mem_cons_self))

/-- The theorem at work on the two branches of a diamond. -/
theorem youngestCommonAncestor_spec_diamond :
    ∃ chain chain2, Traversal.diamond.FirstParentChain 1 chain
      ∧ Traversal.diamond.FirstParentChain 2 chain2
      ∧ chain.find? (· ∈ chain2) = chain2.find? (· ∈ chain)
      ∧ (∀ x, gotCommitGraphFindYoungestCommonAncestor Traversal.diamond 6 1 2 = .ok x
        ↔ chain.find? (· ∈ chain2) = some x)
      ∧ (gotCommitGraphFindYoungestCommonAncestor Traversal.diamond 6 1 2 = .error .ancestry
        ↔ chain.Disjoint chain2) :=
  youngestCommonAncestor_spec Traversal.diamond_complete Traversal.diamond_acyclic (by decide)
    (by decide) (by decide) (by decide)

/-- One commit is an ancestor of the other. -/
example : gotCommitGraphFindYoungestCommonAncestor Traversal.diamond 6 3 0 = .ok 3 := rfl

end CommitGraph

end Got
