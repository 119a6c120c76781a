import Got.CommitGraph.Batch

/-!
# Iterations over a path

With first parents only and a path, an iteration comes to the commits of the
first-parent chain which changed the path, one after the other (`walk`), until it
cannot look at a commit or at what the path had in it before. It is asked for
one commit more than it returns, so an error gets in the way of a commit that was
found already.

What of the repository is in a pack changes how the chain is followed, but not where
it leads: the commits that are skipped in a pack would have been skipped anyway
(`Got.CommitGraph.Batch`). So an iteration comes to the same whichever commits and
trees are in a pack (`traverseOutcome_loose`). But the pack is looked at before it is
asked for, and an error with what is in the pack comes one commit sooner
(`traverseOutcome_ahead`).
-/

namespace Got

variable {ι : Type}

/-- **The walk along a chain**: the commits that changed the path, as far as the
history of the path goes, and the error it ends with. -/
def walk (pathChanged : ι → Except GotErr Bool) : List ι → List ι × Option GotErr
  | [] => ([], none)
  | commitId :: rest =>
    match pathChanged commitId with
    | .error .noObj => ([], none)
    | .error e => ([], some e)
    | .ok true => (commitId :: (walk pathChanged rest).1, (walk pathChanged rest).2)
    | .ok false => walk pathChanged rest

/-- Commits which did not change the path are passed by. -/
theorem walk_append {pathChanged : ι → Except GotErr Bool} {skipped : List ι}
    (h : ∀ x ∈ skipped, pathChanged x = .ok false) (rest : List ι) :
    walk pathChanged (skipped ++ rest) = walk pathChanged rest := by
  induction skipped with
  | nil => rfl
  | cons x skipped ih =>
    rw [List.cons_append, walk, h x List.mem_cons_self]
    exact ih fun y hy => h y (List.mem_cons_of_mem x hy)

/-- A walk ends with an error at one of its commits. -/
theorem walk_eq_error {pathChanged : ι → Except GotErr Bool} {chain : List ι} {e : GotErr}
    (h : (walk pathChanged chain).2 = some e) : ∃ x ∈ chain, pathChanged x = .error e := by
  induction chain with
  | nil => exact nomatch h
  | cons x rest ih =>
    have hrest : (walk pathChanged rest).2 = some e → ∃ y ∈ x :: rest, pathChanged y = .error e :=
      fun h => (ih h).imp fun y hy => ⟨List.mem_cons_of_mem x hy.1, hy.2⟩
    rw [walk] at h
    split at h
    · exact nomatch h
    · next hx =>
      obtain rfl := Option.some.inj h
      exact ⟨x, List.mem_cons_self, hx⟩
    · exact hrest h
    · exact hrest h

/-- **What is returned of a walk**: all of it if the walk ends, and if it ends with an
error, all but the last commit. Where something is in a pack, this may be all but the
last two. -/
structure Returned (packed : Prop) (walked returned : List ι × Option GotErr) : Prop where
  error_eq : returned.2 = walked.2
  all : walked.2 = none → returned.1 = walked.1
  butLast : walked.2 ≠ none → returned.1 = walked.1.dropLast
    ∨ packed ∧ returned.1 = walked.1.dropLast.dropLast

/-- A walk that fails at once. -/
theorem Returned.of_error {packed : Prop} {listed : List ι} {e : GotErr}
    (h : listed = [] ∨ listed.length = 1 ∨ packed ∧ listed.length = 2) :
    Returned packed (listed, some e) ([], some e) := by
  refine ⟨rfl, fun h => (nomatch h), fun _ => ?_⟩
  match listed, h with
  | [], _ => exact Or.inl rfl
  | [_], _ => exact Or.inl rfl
  | [_, _], h => exact Or.inr ⟨by simpa using h, rfl⟩
  | _ :: _ :: _ :: _, h => simp at h

/-- A commit put in front of a walk is put in front of what it returned. -/
theorem Returned.cons {packed : Prop} {walked returned : List ι × Option GotErr}
    (h : Returned packed walked returned) (hne : walked.2 ≠ none → walked.1 ≠ []) (commitId : ι) :
    Returned packed (commitId :: walked.1, walked.2)
      (commitId :: returned.1, returned.2) := by
  refine ⟨h.error_eq, fun he => congrArg (commitId :: ·) (h.all he), fun he => ?_⟩
  dsimp only at he ⊢
  obtain ⟨x, l, hl⟩ := List.exists_cons_of_ne_nil (hne he)
  have hbut := h.butLast he
  rw [hl] at hbut ⊢
  cases l with
  | nil => exact Or.inl (congrArg (commitId :: ·) (hbut.elim id fun h => h.2))
  | cons y l => exact hbut.imp (congrArg (commitId :: ·)) fun h =>
    ⟨h.1, congrArg (commitId :: ·) h.2⟩

variable [LinearOrder ι]

namespace CommitGraph

/-- **What an iteration comes to**: the commits that are returned, and the error it
ends with. -/
def iterOutcome (repo : Repository ι) (fuel : ℕ) (graph : CommitGraph ι) :
    ℕ → List ι × Option GotErr
  | 0 => ([], some .fuel)
  | n + 1 =>
    match gotCommitGraphIterNext repo fuel graph with
    | .error .iterCompleted => ([], none)
    | .error e => ([], some e)
    | .ok (id, graph) =>
      (id :: (iterOutcome repo fuel graph n).1, (iterOutcome repo fuel graph n).2)

/-- What an iteration from a commit comes to. -/
def traverseOutcome (repo : Repository ι) (path : List Name) (firstParentTraversal : Bool)
    (fuel : ℕ) (startId : ι) : List ι × Option GotErr :=
  match gotCommitGraphIterStart repo fuel (gotCommitGraphOpen path firstParentTraversal)
    startId with
  | .error e => ([], some e)
  | .ok graph => iterOutcome repo fuel graph fuel

open Repository ReadPack

variable {repo : Repository ι} {fuel n enough : ℕ} {path : List Name} {graph : CommitGraph ι}
  {commitId : ι} {commit : CommitObject ι} {chain tail : List ι}

/-! ## One branch -/

/-- **Where an iteration stands**: the branches that are open, of which there is one at
most, and the commits of the chain which are left and were not traversed. -/
structure Stands (path : List Name) (graph : CommitGraph ι) (branches left : List ι) : Prop where
  first : graph.firstParentTraversal = true
  path_eq : graph.path = path
  entries : graph.openBranches.entries = branches
  totelem : graph.openBranches.totelem = branches.length
  new : ∀ x ∈ left, x ∉ graph.nodeIds
  room : graph.nodeIds.totelem + left.length ≤ GOT_OBJECT_IDSET_MAX_ELEM

/-- **Between two sweeps**, the open branch is that of the first commit which is
left. -/
def OnBranch (repo : Repository ι) (path : List Name) (graph : CommitGraph ι) : List ι → Prop
  | [] => Stands path graph [] []
  | commitId :: tail => Stands path graph [commitId] (commitId :: tail)
    ∧ repo.FirstParentChain commitId (commitId :: tail)

variable {branches left : List ι}

/-- Commits which are left may be left alone. -/
theorem Stands.stop (h : Stands path graph branches left) : Stands path graph branches [] :=
  ⟨h.first, h.path_eq, h.entries, h.totelem, fun _ hx => (nomatch hx),
    (Nat.le_add_right _ _).trans h.room⟩

/-- Without a branch to stand for, nothing is open. -/
theorem Stands.not_open (h : Stands path graph [] left) (x : ι) :
    ¬graph.openBranches.contains x = true := by
  intro hx
  have hmem := ObjectIdset.mem_def.mp (ObjectIdset.contains_iff.mp hx)
  rw [h.entries] at hmem
  exact List.not_mem_nil hmem

/-- The list of nodes may be another one. -/
theorem Stands.addNodeToIterList (h : Stands path graph branches left)
    (node : CommitGraphNode ι) : Stands path (graph.addNodeToIterList node) branches left :=
  ⟨h.first, h.path_eq, h.entries, h.totelem, h.new, h.room⟩

/-- **The next commit is traversed.** -/
theorem Stands.addNode (h : Stands path graph branches (commitId :: left))
    (hnodup : (commitId :: left).Nodup) :
    ∃ graph', graph.addNode commitId = .ok graph' ∧ Stands path graph' branches left := by
  have hroom := h.room
  rw [List.length_cons] at hroom
  obtain ⟨set, hadd⟩ := ObjectIdset.exists_add
    (show graph.nodeIds.totelem < GOT_OBJECT_IDSET_MAX_ELEM by omega) commitId
  have htotal := ObjectIdset.totelem_add hadd
  refine ⟨{ graph with nodeIds := set }, ?_, h.first, h.path_eq, h.entries, h.totelem, ?_, ?_⟩
  · rw [CommitGraph.addNode, hadd]
    rfl
  · intro x hx hmem
    rcases (ObjectIdset.mem_add hadd).mp hmem with rfl | hmem
    · exact (List.nodup_cons.mp hnodup).1 hx
    · exact h.new x (List.mem_cons_of_mem _ hx) hmem
  · show set.totelem + _ ≤ _
    omega

/-- **The branch is closed.** -/
theorem Stands.closeBranch (h : Stands path graph [commitId] left) :
    ∃ graph', graph.closeBranch commitId = .ok graph' ∧ Frame graph graph'
      ∧ Stands path graph' [] left := by
  obtain ⟨graph', hclose, hframe, hnodes, hentries, htotal⟩ :=
    closeBranch_of_singleton h.entries h.totelem
  exact ⟨graph', hclose, hframe, hframe.firstParentTraversal.trans h.first,
    hframe.path.trans h.path_eq, hentries, htotal, hnodes ▸ h.new, hnodes ▸ h.room⟩

/-- **The next commit is the new branch tip.** -/
theorem Stands.openBranch (h : Stands path graph [] (commitId :: tail))
    (hchain : repo.FirstParentChain commitId (commitId :: tail)) :
    ∃ graph', graph.openBranch commitId = .ok graph' ∧ Frame graph graph'
      ∧ OnBranch repo path graph' (commitId :: tail) := by
  obtain ⟨graph', hopen, hframe, hnodes, hentries, htotal⟩ :=
    openBranch_of_empty h.entries h.totelem commitId
  exact ⟨graph', hopen, hframe, ⟨hframe.firstParentTraversal.trans h.first,
    hframe.path.trans h.path_eq, hentries, htotal, hnodes ▸ h.new, hnodes ▸ h.room⟩, hchain⟩

/-- **The commits of a batch** are traversed, except that the last one is the new
branch tip. -/
theorem Stands.addTraversedCommits {skipped : List ι} {tip : ι}
    (h : Stands path graph [] (skipped ++ tip :: tail)) (hnodup : (skipped ++ tip :: tail).Nodup)
    (hchain : repo.FirstParentChain tip (tip :: tail)) :
    ∃ graph', graph.addTraversedCommits n (skipped ++ [tip]) = .ok (n + skipped.length + 1, graph')
      ∧ Frame graph graph' ∧ OnBranch repo path graph' (tip :: tail) := by
  induction skipped generalizing graph n with
  | nil =>
    obtain ⟨graph', hopen, hframe, hon⟩ := h.openBranch hchain
    refine ⟨graph', ?_, hframe, hon⟩
    rw [List.nil_append, CommitGraph.addTraversedCommits, if_neg (h.not_open tip),
      if_neg (mt ObjectIdset.contains_iff.mp (h.new tip List.mem_cons_self)), if_pos rfl, hopen]
    rfl
  | cons x skipped ih =>
    obtain ⟨graph₁, hadd, h₁⟩ := h.addNode hnodup
    obtain ⟨graph', htraversed, hframe, hon⟩ :=
      @ih (n + 1) graph₁ h₁ (List.nodup_cons.mp hnodup).2
    refine ⟨graph', ?_, (addNode_frame hadd).trans hframe, hon⟩
    rw [List.cons_append, CommitGraph.addTraversedCommits, if_neg (h.not_open x),
      if_neg (mt ObjectIdset.contains_iff.mp (h.new x List.mem_cons_self)),
      if_neg (List.append_ne_nil_of_right_ne_nil _ (List.cons_ne_nil _ _)), hadd, ok_bind,
      htraversed, List.length_cons]
    exact congrArg (fun m => Except.ok (m, graph')) (by omega)

/-! ## Sweeps -/

/-- **The branch goes on** along the chain. Some commits may be passed by, or the pack
has one of which it cannot be told if it changed the path. -/
theorem Stands.advanceBranch (hpack : repo.PackHasTrees) (hpath : path ≠ [])
    (hacyclic : repo.Acyclic) (hfuel : tail.length ≤ fuel)
    (h : Stands path graph [commitId] tail)
    (hchain : repo.FirstParentChain commitId (commitId :: tail))
    (hopen : repo.gotObjectOpenAsCommit commitId = .ok commit) :
    (∃ graph' tail', advanceBranch repo fuel graph commitId commit = .ok graph'
        ∧ Frame graph graph' ∧ OnBranch repo path graph' tail' ∧ tail'.length ≤ tail.length
        ∧ walk (repo.pathChanged path) tail = walk (repo.pathChanged path) tail')
      ∨ ∃ e, advanceBranch repo fuel graph commitId commit = .error e
        ∧ walk (repo.pathChanged path) tail = ([], some e)
        ∧ repo.PackFails := by
  have hnodup := (List.nodup_cons.mp (hchain.nodup hacyclic)).2
  obtain ⟨graph₁, hclose, hframe₁, h₁⟩ := h.closeBranch
  unfold CommitGraph.advanceBranch
  rw [hclose, ok_bind, if_pos h₁.first]
  unfold advanceFirstParent
  cases hchain with
  | root hopen' hparents =>
    rw [hopen] at hopen'
    obtain rfl := Except.ok.inj hopen'
    rw [hparents]
    exact Or.inl ⟨graph₁, [], rfl, hframe₁, h₁, le_rfl, rfl⟩
  | @cons _ pid commit' parents _ hopen' hparents hchain =>
    rw [hopen] at hopen'
    obtain rfl := Except.ok.inj hopen'
    rw [hparents]
    dsimp only [List.head?_cons]
    rw [if_neg (h₁.not_open pid)]
    -- without the pack, the parent is the new branch tip
    have hparent : ∃ graph' tail', graph₁.openBranch pid = .ok graph' ∧ Frame graph graph'
        ∧ OnBranch repo path graph' tail' ∧ tail'.length ≤ tail.length
        ∧ walk (repo.pathChanged path) tail = walk (repo.pathChanged path) tail' := by
      obtain ⟨c, rest, rfl⟩ := List.exists_cons_of_ne_nil hchain.ne_nil
      obtain rfl : pid = c := by cases hchain <;> rfl
      obtain ⟨graph', hopen', hframe, hon⟩ := h₁.openBranch hchain
      exact ⟨graph', _, hopen', hframe₁.trans hframe, hon, le_rfl, rfl⟩
    split
    swap
    · exact Or.inl hparent
    unfold packedFirstParentTraversal
    rw [h₁.path_eq]
    rcases gotTraversePackedCommits_spec hpack hpath hchain hfuel with
      htraverse | ⟨ids, htraverse, skipped, tip, rest, rfl, rfl, hskipped⟩
        | ⟨e, htraverse, skipped, x, rest, rfl, hx, hne, hfails, hskipped⟩
    · rw [htraverse]
      exact Or.inl hparent
    · obtain ⟨graph', htraversed, hframe, hon⟩ :=
        @Stands.addTraversedCommits ι _ repo 0 path graph₁ rest skipped tip h₁ hnodup
          (hchain.of_append rfl)
      rw [htraverse, ok_bind, htraversed]
      refine Or.inl ⟨graph', tip :: rest, rfl, hframe₁.trans hframe, hon, ?_,
        walk_append hskipped _⟩
      rw [List.length_append]
      exact Nat.le_add_left _ _
    · rw [htraverse]
      refine Or.inr ⟨e, rfl, ?_, hfails⟩
      rw [walk_append hskipped, walk, hx]
      cases e <;> first | rfl | exact absurd rfl hne

/-- The ids of the nodes which are in the list. -/
def listedIds (graph : CommitGraph ι) : List ι := graph.iterList.map CommitGraphNode.id

/-- **A sweep** deals with the commit on the branch: a commit that changed the path is
put at the end of the list. If the sweep fails with such a commit, then this is
because of what comes next in the pack. -/
theorem OnBranch.fetch (hpack : repo.PackHasTrees) (hpath : path ≠ []) (hacyclic : repo.Acyclic)
    (hfuel : tail.length ≤ fuel) (h : OnBranch repo path graph (commitId :: tail))
    (hlist : graph.iterList.length ≤ 1) :
    (∃ graph' tail' listed, fetchCommitsFromOpenBranches repo fuel graph = .ok graph'
        ∧ OnBranch repo path graph' tail' ∧ tail'.length ≤ tail.length
        ∧ graph'.listedIds = graph.listedIds ++ listed ∧ listed.length ≤ 1
        ∧ walk (repo.pathChanged path) (commitId :: tail)
          = (listed ++ (walk (repo.pathChanged path) tail').1,
            (walk (repo.pathChanged path) tail').2))
      ∨ ∃ e listed, fetchCommitsFromOpenBranches repo fuel graph = .error e
        ∧ walk (repo.pathChanged path) (commitId :: tail) = (listed, some e)
        ∧ (listed = [] ∨ repo.PackFails ∧ listed = [commitId]) := by
  obtain ⟨hstands, hchain⟩ := h
  obtain ⟨commit, hopen⟩ := hchain.exists_open
  obtain ⟨graph₁, hadd, h₁⟩ := hstands.addNode (hchain.nodup hacyclic)
  have hlist₁ : graph₁.iterList = graph.iterList := (addNode_frame hadd).iterList
  have hfetch : fetchCommitsFromOpenBranches repo fuel graph
      = (sweepTip repo fuel graph₁ ⟨commitId, commit⟩ >>= .ok) := by
    unfold fetchCommitsFromOpenBranches
    rw [if_neg (by rw [ObjectIdset.numElements, hstands.totelem]; exact Nat.one_ne_zero),
      hstands.entries, addBranchTips, hopen, ok_bind, hadd]
    rfl
  have hchanged : repo.pathChanged path commitId = detectChangedPath repo commit commitId path := by
    rw [Repository.pathChanged, hopen, ok_bind]
  rw [hfetch, sweepTip]
  dsimp only
  rw [h₁.path_eq, ← hchanged, walk]
  cases hc : repo.pathChanged path commitId with
  | error e =>
    by_cases hne : e = .noObj
    · subst hne
      -- history of the path stops here
      obtain ⟨graph', hclose, hframe, h'⟩ := h₁.closeBranch
      refine Or.inl ⟨graph', [], [], ?_, h'.stop, Nat.zero_le _, ?_, Nat.zero_le _, rfl⟩
      · dsimp only
        rw [hclose, ok_bind]
      · rw [List.append_nil, listedIds, hframe.iterList, hlist₁]
        rfl
    · refine Or.inr ⟨e, [], ?_, ?_, Or.inl rfl⟩ <;>
        cases e <;> first | rfl | exact absurd rfl hne
  | ok changed =>
    cases changed with
    | false =>
      rcases h₁.advanceBranch hpack hpath hacyclic hfuel hchain hopen with
        ⟨graph', tail', hadvance, hframe, hon, hle, hwalk⟩ | ⟨e, hadvance, hwalk, -⟩
      · refine Or.inl ⟨graph', tail', [], ?_, hon, hle, ?_, Nat.zero_le _, hwalk⟩
        · dsimp only
          rw [if_neg Bool.false_ne_true, hadvance, ok_bind]
        · rw [List.append_nil, listedIds, hframe.iterList, hlist₁]
          rfl
      · refine Or.inr ⟨e, [], ?_, hwalk, Or.inl rfl⟩
        dsimp only
        rw [if_neg Bool.false_ne_true, hadvance, error_bind]
    | true =>
      rcases (h₁.addNodeToIterList ⟨commitId, commit.committerTime⟩).advanceBranch hpack hpath
          hacyclic hfuel hchain hopen with
        ⟨graph', tail', hadvance, hframe, hon, hle, hwalk⟩ | ⟨e, hadvance, hwalk, hpacked⟩
      · refine Or.inl ⟨graph', tail', [commitId], ?_, hon, hle, ?_, le_rfl, ?_⟩
        · dsimp only
          rw [if_pos rfl, hadvance, ok_bind]
        · rw [listedIds, hframe.iterList]
          show (insertBehind _ graph₁.iterList).map _ = _
          rw [hlist₁, insertBehind_of_length_le_one _ hlist, List.map_append]
          rfl
        · dsimp only
          rw [hwalk]
          rfl
      · refine Or.inr ⟨e, [commitId], ?_, ?_, Or.inr ⟨hpacked, rfl⟩⟩
        · dsimp only
          rw [if_pos rfl, hadvance, error_bind]
        · dsimp only
          rw [hwalk]
/-- **Sweeps until there is one more commit** in the list, or nothing left. -/
theorem OnBranch.fetchUntil (hpack : repo.PackHasTrees) (hpath : path ≠ [])
    (hacyclic : repo.Acyclic) (henough : graph.iterList.length + 1 = enough) (hone : enough ≤ 2)
    (hfuel : tail.length ≤ fuel) (hn : tail.length < n) (h : OnBranch repo path graph tail) :
    (∃ graph' tail' listed, fetchUntil repo fuel enough graph n = .ok graph'
        ∧ OnBranch repo path graph' tail' ∧ listed.length + tail'.length ≤ tail.length
        ∧ graph'.listedIds = graph.listedIds ++ listed ∧ listed.length ≤ 1
        ∧ (listed = [] → tail' = [])
        ∧ walk (repo.pathChanged path) tail
          = (listed ++ (walk (repo.pathChanged path) tail').1,
            (walk (repo.pathChanged path) tail').2))
      ∨ ∃ e listed, fetchUntil repo fuel enough graph n = .error e
        ∧ walk (repo.pathChanged path) tail = (listed, some e)
        ∧ (listed = [] ∨ repo.PackFails ∧ listed.length = 1) := by
  induction n generalizing graph tail with
  | zero => exact absurd hn (Nat.not_lt_zero _)
  | succ n ih =>
    cases tail with
    | nil =>
      have hclosed : ¬0 < graph.openBranches.numElements := by
        rw [ObjectIdset.numElements, h.totelem]
        exact Nat.lt_irrefl 0
      exact Or.inl ⟨graph, [], [], fetchUntil_enough fun hmore => hclosed hmore.2, h, le_rfl,
        (List.append_nil _).symm, Nat.zero_le _, fun _ => rfl, rfl⟩
    | cons commitId tail =>
      rw [List.length_cons] at hfuel hn
      have hopen : 0 < graph.openBranches.numElements := by
        rw [ObjectIdset.numElements, h.1.totelem]
        exact Nat.one_pos
      rcases h.fetch hpack hpath hacyclic (by omega : tail.length ≤ fuel) (by omega) with
        ⟨graph', tail', listed, hfetch, hon, hle, hids, hlisted, hwalk⟩
          | ⟨e, listed, hfetch, hwalk, hlisted⟩
      · rw [fetchUntil_fetch (by omega) hopen hfetch]
        have hlen : graph'.iterList.length = graph.iterList.length + listed.length := by
          rw [← List.length_map CommitGraphNode.id, ← listedIds, hids, List.length_append,
            listedIds, List.length_map]
        cases listed with
        | nil =>
          -- the commit did not change the path
          rw [List.append_nil] at hids
          rcases ih (by rw [hlen]; exact henough) (by omega) (by omega) hon with
            ⟨graph'', tail'', listed, huntil, hon, hle', hids', hlisted', hnil, hwalk'⟩
              | ⟨e, listed, huntil, hwalk', hlisted'⟩
          · refine Or.inl ⟨graph'', tail'', listed, huntil, hon, ?_, hids ▸ hids', hlisted', hnil,
              hwalk.trans hwalk'⟩
            rw [List.length_cons]
            omega
          · exact Or.inr ⟨e, listed, huntil, hwalk.trans hwalk', hlisted'⟩
        | cons x listed =>
          rw [List.length_cons] at hlen hlisted
          obtain ⟨m, rfl⟩ : ∃ m, n = m + 1 := ⟨n - 1, by omega⟩
          rw [fetchUntil_enough fun hmore => by omega]
          refine Or.inl ⟨graph', tail', x :: listed, rfl, hon, ?_, hids, hlisted,
            fun hnil => (by cases hnil), hwalk⟩
          simp only [List.length_cons]
          omega
      · refine Or.inr ⟨e, listed, ?_, hwalk, hlisted.imp_right fun h => ⟨h.1, ?_⟩⟩
        · rw [CommitGraph.fetchUntil, if_pos ⟨by omega, hopen⟩, hfetch, error_bind]
        · rw [h.2]
          rfl
/-! ## What is returned -/

theorem OnBranch.path_eq (h : OnBranch repo path graph tail) : graph.path = path := by
  cases tail with
  | nil => exact Stands.path_eq h
  | cons commitId tail => exact h.1.path_eq

/-- The list of nodes has no part in where a branch is. -/
theorem OnBranch.setIterList (h : OnBranch repo path graph tail)
    (iterList : List (CommitGraphNode ι)) :
    OnBranch repo path { graph with iterList } tail := by
  cases tail with
  | nil => exact ⟨h.first, h.path_eq, h.entries, h.totelem, h.new, h.room⟩
  | cons commitId tail =>
    obtain ⟨h, hchain⟩ := h
    exact ⟨⟨h.first, h.path_eq, h.entries, h.totelem, h.new, h.room⟩, hchain⟩

theorem OnBranch.exists_chain (h : OnBranch repo path graph tail) :
    tail = [] ∨ ∃ commitId, repo.FirstParentChain commitId tail := by
  cases tail with
  | nil => exact Or.inl rfl
  | cons commitId tail => exact Or.inr ⟨commitId, h.2⟩

/-- An iteration that fails does not look like one that is completed. -/
theorem OnBranch.walk_ne_completed (hpath : path ≠ []) (h : OnBranch repo path graph tail) :
    (walk (repo.pathChanged path) tail).2 ≠ some .iterCompleted := by
  intro he
  obtain ⟨x, hx, hxe⟩ := walk_eq_error he
  rcases h.exists_chain with rfl | ⟨commitId, hchain⟩
  · exact nomatch hx
  · obtain ⟨before, rest, rfl⟩ := List.append_of_mem hx
    exact absurd (pathChanged_eq_error hpath (hchain.of_append rfl) hxe) (by decide)

/-- **What is in the list is returned**, and then what is left of the walk. -/
theorem OnBranch.iterOutcome (hpack : repo.PackHasTrees) (hpath : path ≠ [])
    (hacyclic : repo.Acyclic) (hfuel : tail.length + 2 ≤ fuel)
    (h : OnBranch repo path graph tail) (hone : graph.iterList.length ≤ 1)
    (hnil : graph.iterList = [] → tail = []) (hn : graph.iterList.length + tail.length < n) :
    Returned repo.PackFails
      (graph.listedIds ++ (walk (repo.pathChanged path) tail).1,
        (walk (repo.pathChanged path) tail).2)
      (iterOutcome repo fuel graph n) := by
  induction n generalizing graph tail with
  | zero => exact absurd hn (Nat.not_lt_zero _)
  | succ n ih =>
    rw [CommitGraph.iterOutcome]
    unfold gotCommitGraphIterNext
    unfold listedIds
    match hlist : graph.iterList, hone with
    | [], _ =>
      obtain rfl := hnil hlist
      exact ⟨rfl, fun _ => rfl, fun he => absurd rfl he⟩
    | [node], _ =>
      rw [hlist] at hn
      dsimp only
      rcases h.fetchUntil hpack hpath hacyclic (by rw [hlist]; rfl) le_rfl
          (by omega : tail.length ≤ fuel) (by omega : tail.length < fuel) with
        ⟨graph', tail', listed, huntil, hon, hle, hids, hlisted, hnil', hwalk⟩
          | ⟨e, listed, huntil, hwalk, hlisted⟩
      · have htail : listedIds { graph' with iterList := graph'.iterList.tail } = listed := by
          show graph'.iterList.tail.map CommitGraphNode.id = listed
          rw [List.map_tail, ← listedIds, hids, listedIds, hlist]
          rfl
        have hlen : graph'.iterList.tail.length = listed.length := by
          rw [← htail]
          exact (List.length_map CommitGraphNode.id).symm
        have hrest := ih (by omega : tail'.length + 2 ≤ fuel) (hon.setIterList graph'.iterList.tail)
          (hlen.trans_le hlisted)
          (fun hnil => hnil' (List.length_eq_zero_iff.mp (hlen ▸ congrArg List.length hnil)))
          (show graph'.iterList.tail.length + _ < n by
            rw [hlen]; rw [List.length_singleton] at hn; omega)
        rw [huntil, hwalk]
        rw [htail] at hrest
        refine hrest.cons (fun he hnil => he ?_) node.id
        -- a walk with nothing in it does not fail
        rw [hnil' (List.append_eq_nil_iff.mp hnil).1]
        rfl
      · have hne := h.walk_ne_completed hpath
        rw [hwalk] at hne
        rw [huntil, hwalk, error_bind]
        have hfails := @Returned.of_error ι repo.PackFails
          ([node.id] ++ listed) e (by
            rcases hlisted with rfl | ⟨hpacked, hlisted⟩
            · exact Or.inr (Or.inl rfl)
            · exact Or.inr (Or.inr ⟨hpacked, by rw [List.length_append, hlisted]; rfl⟩))
        cases e <;> first | exact hfails | exact absurd rfl hne
    | _ :: _ :: _, hle => exact absurd hle (by simp)

/-- **An iteration from a commit** follows its chain. If no commit changed the path, this
is an error. -/
theorem traverseOutcome_spec {startId : ι} {ids : Finset ι} (hcomplete : repo.Complete ids)
    (hacyclic : repo.Acyclic) (hstart : startId ∈ ids)
    (hroom : ids.card ≤ GOT_OBJECT_IDSET_MAX_ELEM)
    (hpack : repo.PackHasTrees) (hpath : path ≠ []) (hfuel : ids.card + 2 ≤ fuel)
    (hchain : repo.FirstParentChain startId chain) :
    Returned repo.PackFails
      (if walk (repo.pathChanged path) chain = ([], none) then ([], some .noTreeEntry)
        else walk (repo.pathChanged path) chain)
      (traverseOutcome repo path true fuel startId) := by
  have hlen := hchain.length_le hcomplete hacyclic hstart
  obtain ⟨c, tail, rfl⟩ := List.exists_cons_of_ne_nil hchain.ne_nil
  obtain rfl : startId = c := by cases hchain <;> rfl
  have hopened : Stands path (gotCommitGraphOpen path true) [] (startId :: tail) :=
    ⟨rfl, rfl, rfl, rfl, fun _ _ => ObjectIdset.not_mem_alloc, by
      show 0 + _ ≤ _
      omega⟩
  obtain ⟨graph, hopen, hframe, hon⟩ := hopened.openBranch hchain
  have hlist : graph.iterList = [] := hframe.iterList
  unfold traverseOutcome gotCommitGraphIterStart
  rw [if_neg (show ¬(gotCommitGraphOpen path true : CommitGraph ι).iterList ≠ [] from
    not_not.mpr rfl), hopen, ok_bind]
  rcases hon.fetchUntil hpack hpath hacyclic (show graph.iterList.length + 1 = 1 by rw [hlist]; rfl)
      (Nat.le_succ 1) (by omega : (startId :: tail).length ≤ fuel)
      (by omega : (startId :: tail).length < fuel) with
    ⟨graph', tail', listed, huntil, hon', hle, hids, hlisted, hnil, hwalk⟩
      | ⟨e, listed, huntil, hwalk, hlisted⟩
  · rw [huntil, ok_bind, hwalk]
    rw [listedIds, listedIds, hlist, List.map_nil, List.nil_append] at hids
    have hlen' : graph'.iterList.length = listed.length := by
      rw [← hids, List.length_map]
    cases listed with
    | nil =>
      obtain rfl := hnil rfl
      rw [if_pos (List.map_eq_nil_iff.mp hids), if_neg (fun h => hpath (hon'.path_eq.symm.trans h))]
      have hend : ([] ++ (walk (repo.pathChanged path) []).1, (walk (repo.pathChanged path) []).2)
        = ([], none) := rfl
      rw [if_pos hend]
      exact ⟨rfl, fun h => (nomatch h), fun _ => Or.inl rfl⟩
    | cons x listed =>
      have hne : graph'.iterList ≠ [] := fun h => by
        rw [h] at hlen'
        exact nomatch hlen'
      have hfound : (x :: listed ++ (walk (repo.pathChanged path) tail').1,
          (walk (repo.pathChanged path) tail').2) ≠ ([], none) := fun h =>
        List.cons_ne_nil _ _ (Prod.mk.inj h).1
      rw [if_neg hne, if_neg hfound, ← hids]
      exact hon'.iterOutcome hpack hpath hacyclic (by omega : tail'.length + 2 ≤ fuel)
        (hlen'.trans_le hlisted) (fun h => absurd h hne) (by rw [hlen']; omega)
  · rw [huntil, hwalk, if_neg (fun h => nomatch h)]
    exact Returned.of_error (hlisted.imp_right fun h => Or.inl h.2)

/-! ## With a pack and without -/

/-- **What is in a pack is looked at before it is asked for.** The error an iteration ends
with is the same as without a pack, and so is what it returns; but if there is an error,
because of something in the pack, then the last commit may be missing. -/
theorem traverseOutcome_ahead {startId : ι} {ids : Finset ι} (hcomplete : repo.Complete ids)
    (hacyclic : repo.Acyclic) (hstart : startId ∈ ids)
    (hroom : ids.card ≤ GOT_OBJECT_IDSET_MAX_ELEM)
    (hpack : repo.PackHasTrees) (hpath : path ≠ []) (hfuel : ids.card + 2 ≤ fuel) :
    (traverseOutcome repo path true fuel startId).2
        = (traverseOutcome repo.loose path true fuel startId).2
      ∧ ((traverseOutcome repo path true fuel startId).1
          = (traverseOutcome repo.loose path true fuel startId).1
        ∨ repo.PackFails ∧ (traverseOutcome repo path true fuel startId).2 ≠ none
          ∧ (traverseOutcome repo path true fuel startId).1
            = (traverseOutcome repo.loose path true fuel startId).1.dropLast) := by
  obtain ⟨chain, hchain⟩ := exists_firstParentChain hcomplete hacyclic hstart
  have hpacked := traverseOutcome_spec hcomplete hacyclic hstart hroom hpack hpath hfuel hchain
  have hloose := traverseOutcome_spec hcomplete.loose hacyclic.loose hstart hroom
    packOpens_loose.packHasTrees hpath hfuel hchain.loose
  rw [funext (pathChanged_loose path)] at hloose
  generalize (if walk (repo.pathChanged path) chain = ([], none) then ([], some .noTreeEntry)
    else walk (repo.pathChanged path) chain) = walked at hpacked hloose
  refine ⟨hpacked.error_eq.trans hloose.error_eq.symm, ?_⟩
  by_cases he : walked.2 = none
  · exact Or.inl ((hpacked.all he).trans (hloose.all he).symm)
  · have hloose := (hloose.butLast he).resolve_right fun h => packOpens_loose.not_fails h.1
    rw [hloose]
    exact (hpacked.butLast he).imp_right fun h =>
      ⟨h.1, fun hnone => he (hpacked.error_eq.symm.trans hnone), h.2⟩

/-- **The commits that are skipped in a pack** did not change the path. -/
theorem gotTraversePackedCommits_skips {ids : Finset ι} (hcomplete : repo.Complete ids)
    (hacyclic : repo.Acyclic) (hid : commitId ∈ ids) (hpack : repo.PackHasTrees)
    (hpath : path ≠ []) (hfuel : ids.card ≤ fuel) {batch : List ι}
    (h : repo.gotTraversePackedCommits fuel commitId path = .ok batch) (hne : batch ≠ []) :
    ∃ skipped tip rest, repo.FirstParentChain commitId (skipped ++ tip :: rest)
      ∧ batch = skipped ++ [tip]
      ∧ (∀ x ∈ skipped, repo.loose.pathChanged path x = .ok false)
      ∧ ∀ x ∈ skipped ++ tip :: rest, repo.loose.pathChanged path x = .ok true →
        x ∈ tip :: rest := by
  obtain ⟨chain, hchain⟩ := exists_firstParentChain hcomplete hacyclic hid
  have hlen := hchain.length_le hcomplete hacyclic hid
  rcases gotTraversePackedCommits_spec hpack hpath hchain (hlen.trans hfuel) with
    hnil | ⟨ids', hids, skipped, tip, rest, rfl, rfl, hskipped⟩ | ⟨e, he, -⟩
  · rw [hnil] at h
    exact absurd (Except.ok.inj h).symm hne
  · rw [hids] at h
    obtain rfl := Except.ok.inj h
    have hskipped' : ∀ x ∈ skipped, repo.loose.pathChanged path x = .ok false := fun x hx =>
      (pathChanged_loose path x).trans (hskipped x hx)
    refine ⟨skipped, tip, rest, hchain, rfl, hskipped', fun x hx hchanged => ?_⟩
    refine (List.mem_append.mp hx).resolve_left fun hx => ?_
    rw [hskipped' x hx] at hchanged
    exact absurd (Except.ok.inj hchanged) Bool.false_ne_true
  · rw [he] at h
    exact nomatch h

/-- **What is in a pack makes no difference** to an iteration over a path. The commits that
are skipped in a pack would be passed by anyway, and the commit at which this stops is the
first one that would be returned, or comes before it. -/
theorem traverseOutcome_loose {startId : ι} {ids : Finset ι} (hcomplete : repo.Complete ids)
    (hacyclic : repo.Acyclic) (hstart : startId ∈ ids)
    (hroom : ids.card ≤ GOT_OBJECT_IDSET_MAX_ELEM)
    (hpack : repo.PackOpens) (hpath : path ≠ []) (hfuel : ids.card + 2 ≤ fuel) :
    traverseOutcome repo path true fuel startId = traverseOutcome repo.loose path true fuel startId
      ∧ ∀ commitId ∈ ids, ∀ batch,
        repo.gotTraversePackedCommits fuel commitId path = .ok batch → batch ≠ [] →
        ∃ skipped tip rest, repo.FirstParentChain commitId (skipped ++ tip :: rest)
          ∧ batch = skipped ++ [tip]
          ∧ (∀ x ∈ skipped, repo.loose.pathChanged path x = .ok false)
          ∧ ∀ x ∈ skipped ++ tip :: rest, repo.loose.pathChanged path x = .ok true →
            x ∈ tip :: rest := by
  obtain ⟨herror, hids⟩ := traverseOutcome_ahead hcomplete hacyclic hstart hroom
    hpack.packHasTrees hpath hfuel
  refine ⟨Prod.ext (hids.resolve_right fun h => hpack.not_fails h.1) herror,
    fun commitId hid batch hbatch hne => ?_⟩
  exact gotTraversePackedCommits_skips hcomplete hacyclic hid hpack.packHasTrees hpath
    (by omega) hbatch hne

/-! ### A file in the place of a directory -/

/-- A commit with one file, which is in a directory. -/
def belowCommit (content : Bytes) (time : ℤ) (parentIds : List ℕ) : CommitObject ℕ :=
  ⟨.tree (.cons S_IFDIR ⟨['d'], by decide⟩
    (.tree (.cons GOT_DEFAULT_FILE_MODE ⟨['f'], isName_f⟩ (.blob content) .nil)) .nil),
    parentIds, time, false⟩

/-- A commit with one file, which has the name of that directory. -/
def aboveCommit (content : Bytes) (time : ℤ) (parentIds : List ℕ) : CommitObject ℕ :=
  ⟨.tree (.cons GOT_DEFAULT_FILE_MODE ⟨['d'], by decide⟩ (.blob content) .nil), parentIds, time,
    false⟩

/-- **A file that became a directory**, after it was changed once. -/
def fileBeforeDirectory : Repository ℕ :=
  (Repository.ofCommits [belowCommit [0] 40 [1], belowCommit [1] 30 [2], aboveCommit [2] 20 [3],
    aboveCommit [3] 10 []]).packAll

/-- The four commits are the whole history. -/
theorem fileBeforeDirectory_complete : fileBeforeDirectory.Complete {0, 1, 2, 3} := by
  intro commitId hid
  simp only [Finset.mem_insert, Finset.mem_singleton] at hid
  rcases hid with rfl | rfl | rfl | rfl
  · exact ⟨{ belowCommit [0] 40 [1] with flagPacked := true }, rfl, by decide⟩
  · exact ⟨{ belowCommit [1] 30 [2] with flagPacked := true }, rfl, by decide⟩
  · exact ⟨{ aboveCommit [2] 20 [3] with flagPacked := true }, rfl, by decide⟩
  · exact ⟨{ aboveCommit [3] 10 [] with flagPacked := true }, rfl, by decide⟩

/-- The example history has no cycle: dates fall along its parents. -/
theorem fileBeforeDirectory_acyclic : fileBeforeDirectory.Acyclic := by
  refine Repository.acyclic_of_lt fun commitId pid ⟨commit, hopen, hpid⟩ => ?_
  have hlt : ∀ p ∈ commit.parentIds, commitId < p := by
    match commitId with
    | 0 => obtain rfl := Except.ok.inj hopen; decide
    | 1 => obtain rfl := Except.ok.inj hopen; decide
    | 2 => obtain rfl := Except.ok.inj hopen; decide
    | 3 => obtain rfl := Except.ok.inj hopen; decide
    | _ + 4 => exact nomatch hopen
  exact hlt pid hpid

/-- The history of the directory, in which it was a file before. -/
theorem traverseOutcome_loose_directory :
    traverseOutcome fileBeforeDirectory [⟨['d'], by decide⟩] true 6 0 = ([0, 1, 2, 3], none)
      ∧ traverseOutcome fileBeforeDirectory [⟨['d'], by decide⟩] true 6 0
        = traverseOutcome fileBeforeDirectory.loose [⟨['d'], by decide⟩] true 6 0 :=
  ⟨rfl, (traverseOutcome_loose fileBeforeDirectory_complete fileBeforeDirectory_acyclic
    (by decide) (by decide) (packOpens_packAll _) (by decide) (by decide)).1⟩

end CommitGraph

end Got
