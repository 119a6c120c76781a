import Mathlib.Data.Finset.Card
import Got.CommitGraph.Advance

/-!
# First parents

With first parents only and no path, there is at most one open branch, and there
is at most one node in the list between two calls. So a sweep puts the next commit
of the first-parent chain at the end of the list, and all that the state of a
traversal comes to is which commits of the chain are still to be returned
(`Remaining`).

A chain ends, as there are no cycles (`exists_firstParentChain`).
-/

namespace Got

variable {ι : Type}

namespace Repository

open Relation

variable {repo : Repository ι} {ids : Finset ι} {commitId x : ι} {chain : List ι}

/-- Every commit of a first-parent chain is reached from where the chain starts. -/
theorem FirstParentChain.reaches (h : repo.FirstParentChain commitId chain) :
    ∀ x ∈ chain, repo.Reaches commitId x := by
  induction h with
  | root => exact fun x hx => List.mem_singleton.mp hx ▸ ReflTransGen.refl
  | @cons commitId pid commit rest chain hopen hparents hchain ih =>
    intro x hx
    rcases List.mem_cons.mp hx with rfl | hx
    · exact ReflTransGen.refl
    · exact ReflTransGen.head ⟨commit, hopen, hparents ▸ List.mem_cons_self⟩ (ih x hx)

/-- Without cycles no commit is on a chain twice. -/
theorem FirstParentChain.nodup (hacyclic : repo.Acyclic)
    (h : repo.FirstParentChain commitId chain) : chain.Nodup := by
  induction h with
  | root => exact List.nodup_singleton _
  | @cons commitId pid commit rest chain hopen hparents hchain ih =>
    refine List.nodup_cons.mpr ⟨fun hmem => hacyclic commitId ?_, ih⟩
    exact TransGen.head' ⟨commit, hopen, hparents ▸ List.mem_cons_self⟩
      (hchain.reaches commitId hmem)

/-- A commit has one first-parent chain. -/
theorem FirstParentChain.unique {chain' : List ι} (h : repo.FirstParentChain commitId chain)
    (h' : repo.FirstParentChain commitId chain') : chain = chain' := by
  induction h generalizing chain' with
  | root hopen hparents =>
    cases h' with
    | root => rfl
    | cons hopen' hparents' _ =>
      rw [hopen] at hopen'
      obtain rfl := Except.ok.inj hopen'
      rw [hparents] at hparents'
      exact nomatch hparents'
  | cons hopen hparents _ ih =>
    cases h' with
    | root hopen' hparents' =>
      rw [hopen] at hopen'
      obtain rfl := Except.ok.inj hopen'
      rw [hparents] at hparents'
      exact nomatch hparents'
    | cons hopen' hparents' hchain' =>
      rw [hopen] at hopen'
      obtain rfl := Except.ok.inj hopen'
      rw [hparents] at hparents'
      obtain ⟨rfl, rfl⟩ := List.cons.inj hparents'
      rw [ih hchain']

/-- **The chain ends**: on the way to a commit there are only commits of the
history, each of them once. -/
theorem exists_firstParentChain (hcomplete : repo.Complete ids) (hacyclic : repo.Acyclic)
    (hid : commitId ∈ ids) : ∃ chain, repo.FirstParentChain commitId chain := by
  suffices h : ∀ n (before : Finset ι) (commitId : ι), before ⊆ ids → commitId ∈ ids →
      ids.card ≤ before.card + n → (∀ x ∈ before, TransGen repo.IsParent x commitId) →
      ∃ chain, repo.FirstParentChain commitId chain from
    h ids.card ∅ commitId (Finset.empty_subset ids) hid (by simp) (by simp)
  intro n
  induction n with
  | zero =>
    intro before commitId hsub hid hcard hbefore
    -- all commits of the history come before, this one too
    have heq := Finset.eq_of_subset_of_card_le hsub (by simpa using hcard)
    exact absurd (hbefore commitId (heq ▸ hid)) (hacyclic commitId)
  | succ n ih =>
    intro before commitId hsub hid hcard hbefore
    obtain ⟨commit, hopen, hparents⟩ := hcomplete commitId hid
    cases hp : commit.parentIds with
    | nil => exact ⟨_, .root hopen hp⟩
    | cons pid rest =>
      have hparent : repo.IsParent commitId pid := ⟨commit, hopen, hp ▸ List.mem_cons_self⟩
      have hnew : commitId ∉ before := fun hmem => hacyclic commitId (hbefore commitId hmem)
      have hpid : pid ∈ ids := hparents pid (hp ▸ List.mem_cons_self)
      obtain ⟨chain, hchain⟩ := ih (before.cons commitId hnew) pid
        (Finset.cons_subset.mpr ⟨hid, hsub⟩) hpid
        (by rw [Finset.card_cons]; omega)
        (fun x hx => by
          rcases Finset.mem_cons.mp hx with rfl | hx
          · exact TransGen.single hparent
          · exact TransGen.tail (hbefore x hx) hparent)
      exact ⟨_, .cons hopen hp hchain⟩

/-- A chain has no more commits than the history. -/
theorem FirstParentChain.length_le [DecidableEq ι] (hcomplete : repo.Complete ids)
    (hacyclic : repo.Acyclic) (hid : commitId ∈ ids) (h : repo.FirstParentChain commitId chain) :
    chain.length ≤ ids.card := by
  rw [← List.toFinset_card_of_nodup (h.nodup hacyclic)]
  refine Finset.card_le_card fun x hx => ?_
  exact hcomplete.reaches hid (h.reaches x (List.mem_toFinset.mp hx))

end Repository

variable [LinearOrder ι]

namespace CommitGraph

open Repository

variable {repo : Repository ι} {fuel n enough : ℕ} {graph : CommitGraph ι} {commitId id : ι}
  {commit : CommitObject ι} {tail rest chain : List ι}

/-- **The open branch** is the first of the commits of a chain that were not
traversed, if there is one. -/
def AtBranch (repo : Repository ι) (graph : CommitGraph ι) : List ι → Prop
  | [] => graph.openBranches.entries = [] ∧ graph.openBranches.totelem = 0
  | c :: tail => graph.openBranches.entries = [c] ∧ graph.openBranches.totelem = 1
    ∧ repo.FirstParentChain c (c :: tail)

/-- With no branch open, opening one makes it the only one. -/
theorem openBranch_of_empty (h0 : graph.openBranches.entries = [])
    (h1 : graph.openBranches.totelem = 0) (id : ι) :
    ∃ graph', graph.openBranch id = .ok graph' ∧ Frame graph graph'
      ∧ graph'.nodeIds = graph.nodeIds ∧ graph'.openBranches.entries = [id]
      ∧ graph'.openBranches.totelem = 1 := by
  obtain ⟨set, hadd⟩ := ObjectIdset.exists_add
    (show graph.openBranches.totelem < GOT_OBJECT_IDSET_MAX_ELEM by rw [h1]; decide) id
  have hperm := ObjectIdset.perm_add hadd
    (by rw [ObjectIdset.mem_def, h0]; exact List.not_mem_nil)
  rw [h0] at hperm
  refine ⟨{ graph with openBranches := set }, ?_, rfl, rfl, List.perm_singleton.mp hperm, ?_⟩
  · rw [openBranch, hadd]
    rfl
  · show set.totelem = 1
    rw [ObjectIdset.totelem_add hadd, h1]

/-- Closing the only open branch leaves none. -/
theorem closeBranch_of_singleton (h0 : graph.openBranches.entries = [commitId])
    (h1 : graph.openBranches.totelem = 1) :
    ∃ graph', graph.closeBranch commitId = .ok graph' ∧ Frame graph graph'
      ∧ graph'.nodeIds = graph.nodeIds ∧ graph'.openBranches.entries = []
      ∧ graph'.openBranches.totelem = 0 := by
  have hmem : graph.openBranches.contains commitId = true :=
    ObjectIdset.contains_iff.mpr (ObjectIdset.mem_def.mpr (h0 ▸ List.mem_singleton_self commitId))
  unfold closeBranch ObjectIdset.remove
  rw [if_neg (by rw [h1]; decide), if_pos hmem]
  refine ⟨_, rfl, rfl, rfl, ?_, ?_⟩
  · show graph.openBranches.entries.erase commitId = []
    rw [h0, List.erase_cons_head]
  · show graph.openBranches.totelem - 1 = 0
    rw [h1]

/-- **Advancing the branch** of a commit of the chain opens the next one. -/
theorem advanceBranch_firstParent (hfirst : graph.firstParentTraversal = true)
    (hpath : graph.path = []) (hat : AtBranch repo graph (commitId :: tail))
    (hopen : repo.gotObjectOpenAsCommit commitId = .ok commit) :
    ∃ graph', advanceBranch repo fuel graph commitId commit = .ok graph' ∧ Frame graph graph'
      ∧ graph'.nodeIds = graph.nodeIds ∧ AtBranch repo graph' tail := by
  obtain ⟨hentries, htotal, hchain⟩ := hat
  obtain ⟨graph₁, hclose, hframe, hnodes, hentries₁, htotal₁⟩ :=
    closeBranch_of_singleton hentries htotal
  unfold advanceBranch
  rw [hclose, ok_bind, hframe.firstParentTraversal, hfirst, if_pos rfl]
  unfold advanceFirstParent
  cases hchain with
  | root hopen' hparents =>
    rw [hopen] at hopen'
    obtain rfl := Except.ok.inj hopen'
    rw [hparents]
    exact ⟨graph₁, rfl, hframe, hnodes, hentries₁, htotal₁⟩
  | @cons _ pid commit' parents _ hopen' hparents hchain =>
    rw [hopen] at hopen'
    obtain rfl := Except.ok.inj hopen'
    obtain ⟨graph₂, hopen₂, hframe₂, hnodes₂, hentries₂, htotal₂⟩ :=
      openBranch_of_empty hentries₁ htotal₁ pid
    have hclosed : ¬graph₁.openBranches.contains pid = true := fun hmem => by
      have := ObjectIdset.mem_def.mp (ObjectIdset.contains_iff.mp hmem)
      rw [hentries₁] at this
      exact List.not_mem_nil this
    rw [hparents]
    dsimp only [List.head?_cons]
    rw [if_neg hclosed, if_neg (fun hp => hp.1 (hframe.path.trans hpath))]
    refine ⟨graph₂, hopen₂, hframe.trans hframe₂, hnodes₂.trans hnodes, ?_⟩
    obtain ⟨c, tail, rfl⟩ := List.exists_cons_of_ne_nil hchain.ne_nil
    obtain rfl : pid = c := by cases hchain <;> rfl
    exact ⟨hentries₂, htotal₂, hchain⟩

/-- **A sweep** fetches the next commit of the chain. -/
theorem fetch_firstParent (hfirst : graph.firstParentTraversal = true) (hpath : graph.path = [])
    (hat : AtBranch repo graph (commitId :: tail)) (hlist : graph.iterList.length ≤ 1)
    (hroom : graph.nodeIds.totelem < GOT_OBJECT_IDSET_MAX_ELEM) :
    ∃ graph', fetchCommitsFromOpenBranches repo fuel graph = .ok graph'
      ∧ graph'.firstParentTraversal = true ∧ graph'.path = [] ∧ AtBranch repo graph' tail
      ∧ graph'.nodeIds.totelem = graph.nodeIds.totelem + 1
      ∧ graph'.iterList.map CommitGraphNode.id
        = graph.iterList.map CommitGraphNode.id ++ [commitId] := by
  obtain ⟨hentries, htotal, hchain⟩ := hat
  obtain ⟨commit, hopen⟩ : ∃ commit, repo.gotObjectOpenAsCommit commitId = .ok commit := by
    cases hchain with
    | root hopen _ => exact ⟨_, hopen⟩
    | cons hopen _ _ => exact ⟨_, hopen⟩
  obtain ⟨set, hadd⟩ := ObjectIdset.exists_add hroom commitId
  have htips : addBranchTips repo graph [commitId]
      = .ok ([⟨commitId, commit⟩], { graph with nodeIds := set }) := by
    rw [addBranchTips, hopen, ok_bind, addNode, hadd]
    rfl
  obtain ⟨graph', hadvance, hframe, hnodes, hat'⟩ := @advanceBranch_firstParent ι _ repo fuel
    (({ graph with nodeIds := set } : CommitGraph ι).addNodeToIterList
      ⟨commitId, commit.committerTime⟩) commitId commit tail hfirst hpath
      ⟨hentries, htotal, hchain⟩ hopen
  refine ⟨graph', ?_, hframe.firstParentTraversal.trans hfirst, hframe.path.trans hpath, hat', ?_,
    ?_⟩
  · unfold fetchCommitsFromOpenBranches
    rw [if_neg (by rw [ObjectIdset.numElements, htotal]; decide), hentries, htips, ok_bind]
    have hd : detectChangedPath repo commit commitId graph.path = .ok true := by
      rw [hpath, detectChangedPath_root]
    dsimp only
    rw [sweepTips, sweepTip]
    dsimp only
    rw [hd]
    dsimp only
    rw [if_pos rfl, hadvance]
    rfl
  · rw [hnodes]
    exact ObjectIdset.totelem_add hadd
  · rw [hframe.iterList]
    show (insertBehind _ graph.iterList).map _ = _
    rw [insertBehind_of_length_le_one _ hlist, List.map_append]
    rfl

/-! ## What is still to be returned -/

/-- **The commits that are still to be returned**: those in the list, of which
there is at most one, and the rest of the chain. -/
structure Remaining (repo : Repository ι) (graph : CommitGraph ι) (rest : List ι) : Prop where
  first : graph.firstParentTraversal = true
  path : graph.path = []
  length_le : graph.iterList.length ≤ 1
  split : ∃ tail, AtBranch repo graph tail ∧ (graph.iterList = [] → tail = [])
    ∧ graph.nodeIds.totelem + tail.length ≤ GOT_OBJECT_IDSET_MAX_ELEM
    ∧ rest = graph.iterList.map CommitGraphNode.id ++ tail

/-- With nothing left to return, the iteration is over. -/
theorem iterNext_completed (h : Remaining repo graph []) :
    gotCommitGraphIterNext repo fuel graph = .error .iterCompleted := by
  obtain ⟨tail, -, -, -, heq⟩ := h.split
  have hlist : graph.iterList = [] := List.map_eq_nil_iff.mp (List.append_eq_nil_iff.mp heq.symm).1
  unfold gotCommitGraphIterNext
  rw [hlist]

theorem fetchUntil_enough (h : ¬(graph.iterList.length < enough
    ∧ graph.openBranches.numElements > 0)) : fetchUntil repo fuel enough graph (n + 1)
      = .ok graph := by
  rw [fetchUntil, if_neg h]

/-- Below the number asked for, fetching goes on with one more sweep. -/
theorem fetchUntil_fetch {graph' : CommitGraph ι} (hlist : graph.iterList.length < enough)
    (hopen : 0 < graph.openBranches.numElements)
    (h : fetchCommitsFromOpenBranches repo fuel graph = .ok graph') :
    fetchUntil repo fuel enough graph (n + 1) = fetchUntil repo fuel enough graph' n := by
  rw [fetchUntil, if_pos ⟨hlist, hopen⟩, h]
  rfl

/-- **The next commit of the chain** is returned. -/
theorem iterNext_firstParent (hfuel : 2 ≤ fuel) (h : Remaining repo graph (id :: rest)) :
    ∃ graph', gotCommitGraphIterNext repo fuel graph = .ok (id, graph')
      ∧ Remaining repo graph' rest := by
  obtain ⟨tail, hat, htail, hroom, heq⟩ := h.split
  obtain ⟨n, rfl⟩ := Nat.exists_eq_add_of_le' hfuel
  unfold gotCommitGraphIterNext
  match hlist : graph.iterList, h.length_le with
  | [], _ =>
    rw [hlist, htail hlist] at heq
    exact nomatch heq
  | [node], _ =>
    rw [hlist] at heq
    obtain ⟨rfl, rfl⟩ := List.cons.inj heq
    dsimp only
    cases rest with
    | nil =>
      have hopen : ¬0 < graph.openBranches.numElements := by
        rw [ObjectIdset.numElements, hat.2]
        exact Nat.lt_irrefl 0
      rw [fetchUntil_enough (fun hmore => hopen hmore.2)]
      refine ⟨_, rfl, h.first, h.path, ?_, [], hat, fun _ => rfl, hroom, ?_⟩
      · show graph.iterList.tail.length ≤ 1
        rw [hlist]
        exact Nat.zero_le 1
      · show _ = graph.iterList.tail.map _ ++ _
        rw [hlist]
        rfl
    | cons c tail =>
      rw [List.length_cons] at hroom
      obtain ⟨graph', hfetch, hfirst, hpath, hat', htotal, hids⟩ :=
        @fetch_firstParent ι _ repo (n + 2) graph c tail h.first h.path hat
          (by rw [hlist]; rfl) (by omega)
      have hlen : graph'.iterList.length = 2 := by
        rw [← List.length_map CommitGraphNode.id, hids, hlist]
        rfl
      rw [fetchUntil_fetch (by rw [hlist]; exact Nat.one_lt_two)
          (by rw [ObjectIdset.numElements, hat.2.1]; exact Nat.one_pos) hfetch,
        fetchUntil_enough (fun hmore => by omega)]
      have hids' : graph'.iterList.tail.map CommitGraphNode.id = [c] := by
        rw [List.map_tail, hids, hlist]
        rfl
      refine ⟨_, rfl, hfirst, hpath, ?_, tail, ?_, fun hnil => ?_, ?_, ?_⟩
      · show graph'.iterList.tail.length ≤ 1
        rw [List.length_tail, hlen]
      · exact hat'
      · rw [show graph'.iterList.tail = [] from hnil] at hids'
        exact nomatch hids'
      · show graph'.nodeIds.totelem + _ ≤ _
        omega
      · show _ = graph'.iterList.tail.map _ ++ _
        rw [hids']
        rfl
  | _ :: _ :: _, hle => exact absurd hle (by simp)

/-- **An iteration is started** with the whole chain to be returned. -/
theorem iterStart_firstParent (hfuel : 2 ≤ fuel) (hchain : repo.FirstParentChain commitId chain)
    (hroom : chain.length ≤ GOT_OBJECT_IDSET_MAX_ELEM) :
    ∃ graph, gotCommitGraphIterStart repo fuel (gotCommitGraphOpen [] true) commitId = .ok graph
      ∧ Remaining repo graph chain := by
  obtain ⟨n, rfl⟩ := Nat.exists_eq_add_of_le' hfuel
  obtain ⟨c, tail, rfl⟩ := List.exists_cons_of_ne_nil hchain.ne_nil
  obtain rfl : commitId = c := by cases hchain <;> rfl
  rw [List.length_cons] at hroom
  obtain ⟨graph₁, hopen, hframe, hnodes, hentries, htotal⟩ :=
    @openBranch_of_empty ι _ (gotCommitGraphOpen [] true) rfl rfl commitId
  have hlist₁ : graph₁.iterList = [] := hframe.iterList
  have htotal₁ : graph₁.nodeIds.totelem = 0 := by rw [hnodes]; rfl
  obtain ⟨graph₂, hfetch, hfirst, hpath, hat, htotal₂, hids⟩ :=
    @fetch_firstParent ι _ repo (n + 2) graph₁ commitId tail hframe.firstParentTraversal
      hframe.path ⟨hentries, htotal, hchain⟩ (by rw [hlist₁]; exact Nat.zero_le 1)
      (by rw [htotal₁]; decide)
  rw [hlist₁] at hids
  have hlen : graph₂.iterList.length = 1 := by
    rw [← List.length_map CommitGraphNode.id, hids]
    rfl
  refine ⟨graph₂, ?_, hfirst, hpath, hlen.le, tail, hat, fun hnil => ?_, ?_, ?_⟩
  · unfold gotCommitGraphIterStart
    rw [if_neg (show ¬(gotCommitGraphOpen [] true : CommitGraph ι).iterList ≠ [] from
        not_not.mpr rfl), hopen, ok_bind,
      fetchUntil_fetch (by rw [hlist₁]; exact Nat.one_pos)
        (by rw [ObjectIdset.numElements, htotal]; exact Nat.one_pos) hfetch,
      fetchUntil_enough (fun hmore => by omega), ok_bind,
      if_neg (fun hnil => by rw [hnil] at hlen; exact nomatch hlen)]
    rfl
  · rw [hnil] at hlen
    exact nomatch hlen
  · omega
  · rw [hids]
    rfl

end CommitGraph

end Got
