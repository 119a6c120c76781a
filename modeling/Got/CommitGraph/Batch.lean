import Got.CommitGraph.FirstParent

/-!
# What is skipped in a pack

The process that reads a pack has a way of its own to find out whether a commit
changed a path, and it is asked about a whole stretch of history at a time.
Where it says that nothing changed it is right, and where it fails, looking at the
commit from outside fails in the same way (`commitChanged_spec`). In all other cases
it stops. So what it answers is a part of the first-parent chain, and of this all
commits but the last did not change the path (`gotTraversePackedCommits_spec`): the
last one, where it stopped for whatever reason, still has to be looked at.

It goes by the objects that are in the pack. If the trees there are trees
(`PackOpens`), looking at them does not fail.
-/

namespace Got

variable {ι : Type}

namespace Repository

/-- **The same repository with all objects in files of their own.** -/
def loose (repo : Repository ι) : Repository ι where
  gotObjectOpenAsCommit id := do
    let commit ← repo.gotObjectOpenAsCommit id
    return { commit with flagPacked := false }
  packidxHasCommit _ := false
  packidxHasTree _ := false

/-- The same repository with all commits and trees in a pack. -/
def packAll (repo : Repository ι) : Repository ι where
  gotObjectOpenAsCommit id := do
    let commit ← repo.gotObjectOpenAsCommit id
    return { commit with flagPacked := true }
  packidxHasCommit _ := true
  packidxHasTree
    | .tree entries => (gotObjectOpenAsTree (.tree entries)).isOk
    | _ => false

/-- **Whether a commit changed the path**, found out one by one. -/
def pathChanged (repo : Repository ι) (path : List Name) (commitId : ι) :
    Except GotErr Bool := do
  let commit ← repo.gotObjectOpenAsCommit commitId
  detectChangedPath repo commit commitId path

/-- What the index of the pack says is there is there. -/
def PackHasTrees (repo : Repository ι) : Prop :=
  ∀ o, repo.packidxHasTree o = true → gotObjectOpenAsTree o ≠ .error .noObj

/-- **The trees in the pack are trees**, which can be opened. -/
def PackOpens (repo : Repository ι) : Prop :=
  ∀ o, repo.packidxHasTree o = true → ∃ es, gotObjectOpenAsTree o = .ok es

/-- There is something in the pack that cannot be opened as a tree. -/
def PackFails (repo : Repository ι) : Prop :=
  ∃ o e, repo.packidxHasTree o = true ∧ gotObjectOpenAsTree o = .error e

theorem PackOpens.not_fails {repo : Repository ι} (h : repo.PackOpens) : ¬repo.PackFails := by
  rintro ⟨o, e, ho, he⟩
  obtain ⟨es, hes⟩ := h o ho
  rw [hes] at he
  exact nomatch he

theorem PackOpens.packHasTrees {repo : Repository ι} (h : repo.PackOpens) : repo.PackHasTrees :=
  fun o ho he => h.not_fails ⟨o, _, ho, he⟩

/-- A repository whose objects are all packed opens each of them from its pack. -/
theorem packOpens_packAll (repo : Repository ι) : repo.packAll.PackOpens := by
  intro o ho
  cases o with
  | tree entries =>
    cases hopen : gotObjectOpenAsTree (.tree entries) with
    | ok es => exact ⟨es, rfl⟩
    | error e =>
      have hok : (gotObjectOpenAsTree (.tree entries)).isOk = true := ho
      rw [hopen] at hok
      exact Bool.noConfusion hok
  | blob content => exact Bool.noConfusion ho
  | foreign id => exact Bool.noConfusion ho

variable {repo : Repository ι} {path : List Name} {commitId pid : ι} {commit : CommitObject ι}

theorem loose_ok (h : repo.gotObjectOpenAsCommit commitId = .ok commit) :
    repo.loose.gotObjectOpenAsCommit commitId = .ok { commit with flagPacked := false } := by
  show repo.gotObjectOpenAsCommit commitId >>= _ = _
  rw [h]
  rfl

theorem loose_error {e : GotErr} (h : repo.gotObjectOpenAsCommit commitId = .error e) :
    repo.loose.gotObjectOpenAsCommit commitId = .error e := by
  show repo.gotObjectOpenAsCommit commitId >>= _ = _
  rw [h]
  rfl

/-- What a path leads to does not depend on whether objects are packed. -/
theorem gotObjectIdByPath_loose (commitId : ι) (path : List Name) :
    repo.loose.gotObjectIdByPath commitId path = repo.gotObjectIdByPath commitId path := by
  unfold gotObjectIdByPath
  cases h : repo.gotObjectOpenAsCommit commitId with
  | error e => rw [loose_error h]
  | ok commit => rw [loose_ok h, ok_bind, ok_bind]

/-- **Where the objects are** makes no difference to what changed. -/
theorem pathChanged_loose (path : List Name) (commitId : ι) :
    repo.loose.pathChanged path commitId = repo.pathChanged path commitId := by
  unfold pathChanged
  cases h : repo.gotObjectOpenAsCommit commitId with
  | error e => rw [loose_error h, error_bind, error_bind]
  | ok commit =>
    rw [loose_ok h, ok_bind, ok_bind]
    unfold detectChangedPath
    rw [gotObjectIdByPath_loose]
    dsimp only
    cases commit.parentIds.head? with
    | none => rfl
    | some pid =>
      cases hp : repo.gotObjectOpenAsCommit pid with
      | error e => simp only [loose_error hp, hp]
      | ok pcommit => simp only [loose_ok hp, hp, ok_bind]

/-- Parents are the same whether the objects are loose or packed. -/
theorem isParent_loose : repo.loose.IsParent commitId pid ↔ repo.IsParent commitId pid := by
  unfold IsParent
  cases h : repo.gotObjectOpenAsCommit commitId with
  | error e => rw [loose_error h]
  | ok commit =>
    rw [loose_ok h]
    constructor
    · rintro ⟨_, hopen, hp⟩
      obtain rfl := Except.ok.inj hopen
      exact ⟨commit, rfl, hp⟩
    · rintro ⟨_, hopen, hp⟩
      obtain rfl := Except.ok.inj hopen
      exact ⟨_, rfl, hp⟩

theorem FirstParentChain.loose {chain : List ι} (h : repo.FirstParentChain commitId chain) :
    repo.loose.FirstParentChain commitId chain := by
  induction h with
  | root hopen hparents => exact .root (loose_ok hopen) hparents
  | cons hopen hparents _ ih => exact .cons (loose_ok hopen) hparents ih

theorem Complete.loose {ids : Finset ι} (h : repo.Complete ids) : repo.loose.Complete ids := by
  intro commitId hid
  obtain ⟨commit, hopen, hparents⟩ := h commitId hid
  exact ⟨_, loose_ok hopen, hparents⟩

theorem Acyclic.loose (h : repo.Acyclic) : repo.loose.Acyclic := by
  have hparent : repo.loose.IsParent = repo.IsParent :=
    funext fun _ => funext fun _ => propext isParent_loose
  rwa [Acyclic, hparent]

theorem packOpens_loose : repo.loose.PackOpens := fun _ h => Bool.noConfusion h

/-! ## How looking at a path fails -/

/-- The walk by path fails with `no such entry`, or with what opening one of the trees fails with.
-/
theorem idBySegments_eq_error {es : List TreeEntry} {e : GotErr}
    (h : idBySegments es path = .error e) :
    e = .noTreeEntry ∨ e ∈ [.noObj, .badObjData, .treeDupEntry] := by
  induction path generalizing es with
  | nil => exact Or.inl (Except.error.inj h).symm
  | cons seg segs ih =>
    rw [idBySegments] at h
    split at h
    · exact Or.inl (Except.error.inj h).symm
    split at h
    · cases h
    rcases bind_eq_error_iff.mp h with h | ⟨next, -, h⟩
    · exact Or.inr (gotObjectOpenAsTree_eq_error h)
    · exact ih h

/-- Comparing two versions of a path fails only as opening a tree fails. -/
theorem treePathChangedLoop_eq_error {tree1 : List TreeEntry} {tree2 : Option (List TreeEntry)}
    {e : GotErr} (h : treePathChangedLoop tree1 tree2 path = .error e) :
    e ∈ [.noObj, .badObjData, .treeDupEntry] := by
  induction path generalizing tree1 tree2 with
  | nil => exact nomatch h
  | cons seg segs ih =>
    rw [treePathChangedLoop] at h
    split at h
    · obtain rfl := Except.error.inj h
      decide
    split at h
    · split at h
      · exact nomatch h
      rcases bind_eq_error_iff.mp h with h | ⟨next1, -, h⟩
      · exact gotObjectOpenAsTree_eq_error h
      · exact ih h
    · split at h
      · exact nomatch h
      split at h
      · exact nomatch h
      split at h
      · exact nomatch h
      rcases bind_eq_error_iff.mp h with h | ⟨next1, -, h⟩
      · exact gotObjectOpenAsTree_eq_error h
      rcases bind_eq_error_iff.mp h with h | ⟨next2, -, h⟩
      · exact gotObjectOpenAsTree_eq_error h
      · exact ih h

/-- A commit is compared with its first parent. -/
theorem pathChanged_parent {pcommit : CommitObject ι} {rest : List ι} (hpath : path ≠ [])
    (hopen : repo.gotObjectOpenAsCommit commitId = .ok commit)
    (hparents : commit.parentIds = pid :: rest)
    (hpopen : repo.gotObjectOpenAsCommit pid = .ok pcommit) :
    repo.pathChanged path commitId = (do
      let tree ← gotObjectOpenAsTree commit.treeId
      let ptree ← gotObjectOpenAsTree pcommit.treeId
      treePathChangedLoop tree (some ptree) path) := by
  unfold pathChanged detectChangedPath gotObjectTreePathChanged
  rw [hopen, ok_bind, if_neg hpath, hparents]
  dsimp only [List.head?_cons]
  rw [hpopen]
  simp only [ok_bind, if_neg hpath]

theorem FirstParentChain.exists_open {chain : List ι} (h : repo.FirstParentChain commitId chain) :
    ∃ commit, repo.gotObjectOpenAsCommit commitId = .ok commit := by
  cases h with
  | root hopen _ => exact ⟨_, hopen⟩
  | cons hopen _ _ => exact ⟨_, hopen⟩

/-- The rest of a chain is the chain of its first commit. -/
theorem FirstParentChain.of_append {chain skipped rest : List ι} {tip : ι}
    (h : repo.FirstParentChain commitId chain) (heq : chain = skipped ++ tip :: rest) :
    repo.FirstParentChain tip (tip :: rest) := by
  induction h generalizing skipped with
  | @root commitId commit hopen hparents =>
    cases skipped with
    | nil =>
      obtain ⟨rfl, rfl⟩ := List.cons.inj heq
      exact .root hopen hparents
    | cons x skipped => exact absurd (List.cons.inj heq).2.symm (by simp)
  | @cons commitId pid commit parents chain hopen hparents hchain ih =>
    cases skipped with
    | nil =>
      obtain ⟨rfl, rfl⟩ := List.cons.inj heq
      exact .cons hopen hparents hchain
    | cons x skipped => exact ih (List.cons.inj heq).2

/-- **Looking at a commit of a chain** fails only because of its trees. -/
theorem pathChanged_eq_error {chain : List ι} {e : GotErr} (hpath : path ≠ [])
    (hchain : repo.FirstParentChain commitId chain)
    (h : repo.pathChanged path commitId = .error e) :
    e ∈ [.noObj, .badObjData, .treeDupEntry] := by
  cases hchain with
  | @root _ commit hopen hparents =>
    unfold pathChanged detectChangedPath at h
    rw [hopen, ok_bind, if_neg hpath, hparents] at h
    dsimp only [List.head?_nil] at h
    split at h
    · exact nomatch h
    · next e' hne hid =>
      obtain rfl := Except.error.inj h
      unfold gotObjectIdByPath at hid
      rw [hopen, ok_bind, if_neg hpath] at hid
      rcases bind_eq_error_iff.mp hid with hid | ⟨tree, -, hid⟩
      · exact gotObjectOpenAsTree_eq_error hid
      · exact (idBySegments_eq_error hid).resolve_left hne
    · exact nomatch h
  | @cons _ pid commit rest _ hopen hparents hchain =>
    obtain ⟨pcommit, hpopen⟩ := hchain.exists_open
    rw [pathChanged_parent hpath hopen hparents hpopen] at h
    rcases bind_eq_error_iff.mp h with h | ⟨tree, -, h⟩
    · exact gotObjectOpenAsTree_eq_error h
    rcases bind_eq_error_iff.mp h with h | ⟨ptree, -, h⟩
    · exact gotObjectOpenAsTree_eq_error h
    · exact treePathChangedLoop_eq_error h

end Repository

namespace ReadPack

open Repository

variable {repo : Repository ι} {path : List Name} {commitId pid : ι}
  {commit pcommit : CommitObject ι} {chain rest : List ι} {fuel : ℕ}

/-! ## Two ways to look at a path -/

/-- **The two loops over the segments of a path** agree, unless this one finds a
change, or not what it looks for. -/
theorem treePathChangedLoop_agrees {entries1 entries2 : List TreeEntry} {r : Except GotErr Bool}
    (h : ReadPack.treePathChangedLoop repo entries1 entries2 path = r) (hchanged : r ≠ .ok true)
    (hfound : r ≠ .error .noObj) :
    Got.treePathChangedLoop entries1 (some entries2) path = r := by
  induction path generalizing entries1 entries2 with
  | nil => exact h
  | cons seg segs ih =>
    rw [ReadPack.treePathChangedLoop] at h
    split at h
    · exact absurd h.symm hfound
    next pte1 h1 =>
    split at h
    · exact absurd h.symm hchanged
    next pte2 h2 =>
    rw [Got.treePathChangedLoop, h1, Option.bind_some, h2]
    dsimp only
    split at h
    · exact absurd h.symm hchanged
    next hmode =>
    -- modes which are the same stay so when they are normalized
    rw [if_neg (not_not.mpr (congrArg normalizeModeForComparison (not_not.mp hmode)))]
    split at h
    · next hid =>
      rw [if_pos hid]
      exact h
    next hid =>
    rw [if_neg hid]
    split at h
    · exact absurd h.symm hchanged
    next hsegs =>
    rw [if_neg hsegs]
    split at h
    · exact absurd h.symm hfound
    cases hopen1 : gotObjectOpenAsTree pte1.id with
    | error e =>
      rw [hopen1] at h
      exact h
    | ok next1 =>
      rw [hopen1, ok_bind] at h
      rw [ok_bind]
      split at h
      · exact absurd h.symm hfound
      cases hopen2 : gotObjectOpenAsTree pte2.id with
      | error e =>
        rw [hopen2] at h
        exact h
      | ok next2 =>
        rw [hopen2, ok_bind] at h
        exact ih h

/-- The loop fails at something that is in the pack. -/
theorem packFails_of_treePathChangedLoop {entries1 entries2 : List TreeEntry} {e : GotErr}
    (h : ReadPack.treePathChangedLoop repo entries1 entries2 path = .error e) (hne : e ≠ .noObj) :
    repo.PackFails := by
  induction path generalizing entries1 entries2 with
  | nil => exact nomatch h
  | cons seg segs ih =>
    rw [ReadPack.treePathChangedLoop] at h
    split at h
    · exact absurd (Except.error.inj h).symm hne
    split at h
    · exact nomatch h
    split at h
    · exact nomatch h
    split at h
    · exact nomatch h
    split at h
    · exact nomatch h
    split at h
    · exact absurd (Except.error.inj h).symm hne
    next hpack1 =>
    rcases bind_eq_error_iff.mp h with h | ⟨next1, -, h⟩
    · exact ⟨_, e, Bool.eq_true_of_not_eq_false hpack1, h⟩
    split at h
    · exact absurd (Except.error.inj h).symm hne
    next hpack2 =>
    rcases bind_eq_error_iff.mp h with h | ⟨next2, -, h⟩
    · exact ⟨_, e, Bool.eq_true_of_not_eq_false hpack2, h⟩
    · exact ih h

/-- **What is said of a commit in the pack**, where it is not that it may have
changed the path. -/
theorem commitChanged_spec (hpack : repo.PackHasTrees) (hpath : path ≠ [])
    (hopen : repo.gotObjectOpenAsCommit commitId = .ok commit)
    (hparents : commit.parentIds = pid :: rest)
    (hpopen : repo.gotObjectOpenAsCommit pid = .ok pcommit) :
    (commitChanged repo commit pcommit path = .ok (some false) →
        repo.pathChanged path commitId = .ok false)
      ∧ ∀ e, commitChanged repo commit pcommit path = .error e →
        repo.pathChanged path commitId = .error e ∧ e ≠ .noObj ∧ repo.PackFails := by
  rw [pathChanged_parent hpath hopen hparents hpopen]
  unfold commitChanged
  rw [if_neg hpath]
  split
  · exact ⟨fun h => (nomatch h), fun e h => (nomatch h)⟩
  next htree =>
  split
  · exact ⟨fun h => (nomatch h), fun e h => (nomatch h)⟩
  next hptree =>
  have htree := Bool.eq_true_of_not_eq_false htree
  have hptree := Bool.eq_true_of_not_eq_false hptree
  cases ho : gotObjectOpenAsTree commit.treeId with
  | error e =>
    refine ⟨fun h => (nomatch h), fun e' h => ?_⟩
    obtain rfl := Except.error.inj h
    exact ⟨rfl, fun he => hpack _ htree (he ▸ ho), _, e, htree, ho⟩
  | ok entries =>
    rw [ok_bind, ok_bind]
    cases hpo : gotObjectOpenAsTree pcommit.treeId with
    | error e =>
      refine ⟨fun h => (nomatch h), fun e' h => ?_⟩
      obtain rfl := Except.error.inj h
      exact ⟨rfl, fun he => hpack _ hptree (he ▸ hpo), _, e, hptree, hpo⟩
    | ok pentries =>
      rw [ok_bind, ok_bind]
      unfold treePathChanged
      rw [if_neg hpath]
      constructor
      · intro h
        split at h
        · exact nomatch h
        · exact nomatch h
        · next changed hloop =>
          obtain rfl := Option.some.inj (Except.ok.inj h)
          exact treePathChangedLoop_agrees hloop (fun h => nomatch h) (fun h => nomatch h)
      · intro e h
        split at h
        · exact nomatch h
        · next e' hne hloop =>
          obtain rfl := Except.error.inj h
          exact ⟨treePathChangedLoop_agrees hloop (fun h => nomatch h)
            (fun h => hne (Except.error.inj h)), hne, packFails_of_treePathChangedLoop hloop hne⟩
        · exact nomatch h

/-! ## How far it goes -/

/-- All ids that were noted. -/
def Traversed.ids (t : Traversed ι) : List ι := t.sent.flatten ++ t.commitIds

/-- **Sending a message** does not lose an id. -/
theorem Traversed.ids_note (t : Traversed ι) (id : ι) : (t.note id).ids = t.ids ++ [id] := by
  unfold note ids
  split
  · rw [List.flatten_append, List.flatten_singleton]
  · exact (List.append_assoc _ _ _).symm

/-- **A batch**: the part of a chain that ends where it was stopped. The commits
before did not change the path. -/
def Batch (repo : Repository ι) (path : List Name) (chain ids : List ι) : Prop :=
  ∃ skipped tip rest, chain = skipped ++ tip :: rest ∧ ids = skipped ++ [tip]
    ∧ ∀ x ∈ skipped, repo.pathChanged path x = .ok false

/-- **The traversal fails** at a commit at which looking at the path fails, because of what
is in the pack, and the commits before it did not change the path. -/
def Fails (repo : Repository ι) (path : List Name) (chain : List ι) (e : GotErr) : Prop :=
  ∃ skipped x rest, chain = skipped ++ x :: rest
    ∧ repo.pathChanged path x = .error e ∧ e ≠ .noObj ∧ repo.PackFails
    ∧ ∀ x ∈ skipped, repo.pathChanged path x = .ok false

theorem Batch.cons {ids : List ι} (hid : repo.pathChanged path commitId = .ok false)
    (h : Batch repo path chain ids) : Batch repo path (commitId :: chain) (commitId :: ids) := by
  obtain ⟨skipped, tip, rest, rfl, rfl, hskipped⟩ := h
  exact ⟨commitId :: skipped, tip, rest, rfl, rfl, List.forall_mem_cons.mpr ⟨hid, hskipped⟩⟩

theorem Fails.cons {e : GotErr} (hid : repo.pathChanged path commitId = .ok false)
    (h : Fails repo path chain e) : Fails repo path (commitId :: chain) e := by
  obtain ⟨skipped, x, rest, rfl, hx, hne, hfails, hskipped⟩ := h
  exact ⟨commitId :: skipped, x, rest, rfl, hx, hne, hfails,
    List.forall_mem_cons.mpr ⟨hid, hskipped⟩⟩

/-- **One batch of the packed walk.** It adds one batch of the chain to the commits traversed, or
fails as the chain does. -/
theorem traversalLoop_spec (hpack : repo.PackHasTrees) (hpath : path ≠ [])
    (hchain : repo.FirstParentChain commitId chain)
    (hopen : repo.gotObjectOpenAsCommit commitId = .ok commit) (hfuel : chain.length ≤ fuel)
    (t : Traversed ι) :
    (∃ t' ids, traversalLoop repo path fuel commitId commit t = .ok t' ∧ t'.ids = t.ids ++ ids
        ∧ Batch repo path chain ids)
      ∨ ∃ e, traversalLoop repo path fuel commitId commit t = .error e
        ∧ Fails repo path chain e := by
  induction hchain generalizing fuel commit t with
  | @root commitId commit' hopen' hparents =>
    rw [hopen] at hopen'
    obtain rfl := Except.ok.inj hopen'
    obtain ⟨fuel, rfl⟩ := Nat.exists_eq_add_of_le' hfuel
    refine Or.inl ⟨t.note commitId, [commitId], ?_, t.ids_note commitId,
      ⟨[], commitId, [], rfl, rfl, fun _ hx => (nomatch hx)⟩⟩
    rw [List.length_singleton, traversalLoop, hparents]
    rfl
  | @cons commitId pid commit' rest chain hopen' hparents hchain ih =>
    rw [hopen] at hopen'
    obtain rfl := Except.ok.inj hopen'
    rw [List.length_cons] at hfuel
    obtain ⟨fuel, rfl⟩ := Nat.exists_eq_add_of_le' (Nat.le_of_add_left_le hfuel)
    obtain ⟨pcommit, hpopen⟩ := hchain.exists_open
    -- it may stop at any commit
    have hstop : Batch repo path (commitId :: chain) [commitId] :=
      ⟨[], commitId, chain, rfl, rfl, fun _ hx => (nomatch hx)⟩
    have hstopped : ∃ t' ids, Except.ok (ε := GotErr) (t.note commitId) = .ok t'
        ∧ t'.ids = t.ids ++ ids ∧ Batch repo path (commitId :: chain) ids :=
      ⟨_, _, rfl, t.ids_note commitId, hstop⟩
    obtain ⟨hsame, hfails⟩ := commitChanged_spec hpack hpath hopen hparents hpopen
    rw [traversalLoop, hparents]
    dsimp only [List.head?_cons]
    split
    · exact Or.inl hstopped
    rw [hpopen]
    dsimp only
    cases hc : commitChanged repo commit pcommit path with
    | error e =>
      obtain ⟨he, hne, hpackFails⟩ := hfails e hc
      exact Or.inr ⟨e, rfl, [], commitId, chain, rfl, he, hne, hpackFails,
        fun _ hx => (nomatch hx)⟩
    | ok changed =>
      match changed, hc with
      | none, _ => exact Or.inl hstopped
      | some true, _ => exact Or.inl hstopped
      | some false, hc =>
        have hid := hsame hc
        rcases ih hpopen (by omega : chain.length ≤ fuel) (t.note commitId) with
          ⟨t', ids, hloop, hids, hbatch⟩ | ⟨e, hloop, hfails⟩
        · refine Or.inl ⟨t', commitId :: ids, hloop, ?_, hbatch.cons hid⟩
          rw [hids, Traversed.ids_note, List.append_assoc]
          rfl
        · exact Or.inr ⟨e, hloop, hfails.cons hid⟩

/-- **What is traversed in a pack.** -/
theorem gotTraversePackedCommits_spec (hpack : repo.PackHasTrees) (hpath : path ≠ [])
    (hchain : repo.FirstParentChain commitId chain) (hfuel : chain.length ≤ fuel) :
    repo.gotTraversePackedCommits fuel commitId path = .ok []
      ∨ (∃ ids, repo.gotTraversePackedCommits fuel commitId path = .ok ids
          ∧ Batch repo path chain ids)
      ∨ ∃ e, repo.gotTraversePackedCommits fuel commitId path = .error e
          ∧ Fails repo path chain e := by
  unfold gotTraversePackedCommits
  split
  · exact Or.inl rfl
  next hcommit =>
  have hcommit := Bool.eq_true_of_not_eq_false hcommit
  refine Or.inr ?_
  obtain ⟨commit, hopen⟩ := hchain.exists_open
  unfold commitTraversalRequest
  rw [if_neg (by rw [hcommit]; exact Bool.noConfusion), hopen]
  dsimp only
  rcases traversalLoop_spec hpack hpath hchain hopen hfuel ⟨[], []⟩ with
    ⟨t, ids, hloop, hids, hbatch⟩ | ⟨e, hloop, hfails⟩
  · refine Or.inl ⟨ids, ?_, hbatch⟩
    rw [hloop, ok_bind]
    -- the last message is sent if there is anything in it
    refine congrArg Except.ok (Eq.trans ?_ hids)
    unfold Traversed.ids
    split
    · next hnil => rw [hnil, List.append_nil]
    · rw [List.flatten_append, List.flatten_singleton]
  · refine Or.inr ⟨e, ?_, hfails⟩
    rw [hloop]
    rfl

end ReadPack

end Got
