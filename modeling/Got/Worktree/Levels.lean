import Got.Worktree.WriteTreeSpec

/-!
# One directory of the new tree

What `write_tree` makes for a directory is stated by `Content`: the files that
fit are applied, everything else is as it was in the base tree, and no
directory was left empty.

A list of entries for one directory is described by where its entries are
from (`Level`). An entry is either made for an added file, or for a directory
that is needed for one (`New`), or it is what became of an entry of the base
tree (`Carried`). From that, and from the content of the subdirectories, the
content of the directory follows (`content_of_level`).
-/

namespace Got

variable (cts : List Commitable) (b : List Name)

/-- A file was applied to what is at its path: only a deletion leaves nothing. -/
def AppliedTo (ct : Commitable) (file : Option File) : Prop :=
  file = ct.effect ∧ (file = none → ct.change = .delete)

/-- **The content of a directory** at a path, made of that of a base tree. -/
structure Content (bt : Option (List TreeEntry)) (es : List TreeEntry) : Prop where
  applied : ∀ ct ∈ cts, ∀ n path, ct.names = b ++ n :: path → Fits bt (n :: path) ct →
    AppliedTo ct (fileAt es (n :: path))
  others : ∀ path, (∀ ct ∈ cts, ct.names = b ++ path → ¬Fits bt path ct) →
    fileAt es path = filesOf bt path
  untouched : ∀ path te, (∀ ct ∈ cts, ¬b ++ path <+: ct.names) → entryOf bt path = some te →
    ∃ te', entryAt es path = some te' ∧ te'.id = te.id ∧ kindOf te'.mode = kindOf te.mode
  nonempty : ∀ path te, entryAt es path = some te → te.subtree = some [] →
    ∃ te', entryOf bt path = some te' ∧ te'.subtree = some []

/-- **What becomes of an entry** of the base tree. -/
inductive Carried (te : TreeEntry) : Option TreeEntry → Prop
  | submodule : te.isSubmodule → Carried te (some te)
  | untouched : S_ISDIR te.mode →
    (∀ ct ∈ cts, ∀ m rest, ct.names ≠ b ++ te.name :: m :: rest) → Carried te (some te)
  | subtree {ct : Commitable} {m : Name} {rest : List Name} {es es' : List TreeEntry}
      {id : Object} : S_ISDIR te.mode → ct ∈ cts → ct.names = b ++ te.name :: m :: rest →
    gotObjectOpenAsTree te.id = .ok es → gotObjectOpenAsTree id = .ok es' → es' ≠ [] →
    Content cts (b ++ [te.name]) (some es) es' → Carried te (some { te with id })
  | emptied {ct : Commitable} {m : Name} {rest : List Name} {es : List TreeEntry} :
    S_ISDIR te.mode → ct ∈ cts → ct.names = b ++ te.name :: m :: rest →
    gotObjectOpenAsTree te.id = .ok es → Content cts (b ++ [te.name]) (some es) [] →
    Carried te none
  | unchanged : ¬S_ISDIR te.mode → ¬te.isSubmodule → (∀ ct ∈ cts, ¬Changes b te ct) →
    Carried te (some te)
  | modified {ct : Commitable} {id : Object} : ¬S_ISDIR te.mode → ¬te.isSubmodule → ct ∈ cts →
    Changes b te ct → ct.change = .modify → ct.newBlob = some id →
    Carried te (some { te with mode := getCtFileMode ct, id })
  | deleted {ct : Commitable} : ¬S_ISDIR te.mode → ¬te.isSubmodule → ct ∈ cts →
    Changes b te ct → ct.change = .delete → Carried te none

/-- **A new entry**: an added file, or a directory that was not there. -/
inductive New (bt : Option (List TreeEntry)) : TreeEntry → Prop
  | file {ct : Commitable} {n : Name} {id : Object} : ct ∈ cts → ct.change = .add →
    ct.names = b ++ [n] → ct.newBlob = some id →
    New bt { mode := getCtFileMode ct, name := n, id }
  | dir {n : Name} {id : Object} {es : List TreeEntry} : entryOf bt [n] = none →
    gotObjectOpenAsTree id = .ok es → es ≠ [] → Content cts (b ++ [n]) none es →
    New bt { mode := S_IFDIR, name := n, id }

/-- **A list of entries for a directory**, and where they are from: `fate` says
what became of the entries of the base tree. -/
structure Level (bt : Option (List TreeEntry)) (fate : TreeEntry → Option TreeEntry)
    (paths : List TreeEntry) : Prop where
  order : NameOrder paths
  origin : ∀ te ∈ paths, New cts b bt te ∨ ∃ te₀ ∈ bt.getD [], fate te₀ = some te
  addedFile : ∀ ct ∈ cts, ct.change = .add → ∀ n, ct.names = b ++ [n] →
    ∃ te ∈ paths, te.name = n ∧ te.mode = getCtFileMode ct ∧ ct.newBlob = some te.id
  addedDir : ∀ ct ∈ cts, ct.change = .add → ∀ n m rest, ct.names = b ++ n :: m :: rest →
    entryOf bt [n] = none → ∃ te ∈ paths, te.name = n ∧ S_ISDIR te.mode
  carried : ∀ te₀ ∈ bt.getD [], Carried cts b te₀ (fate te₀)
    ∧ ∀ te, fate te₀ = some te → te ∈ paths

variable {cts b}

theorem Carried.name_eq {te te' : TreeEntry} (h : Carried cts b te (some te')) :
    te'.name = te.name := by
  cases h <;> rfl

/-- Whether it is a directory does not change. -/
theorem Carried.isDir_eq {te te' : TreeEntry} (h : Carried cts b te (some te')) :
    S_ISDIR te'.mode = S_ISDIR te.mode := by
  cases h with
  | modified hdir =>
    rw [(kindOf_getCtFileMode _).2]
    exact (Bool.eq_false_of_not_eq_true hdir).symm
  | _ => rfl

/-- An added file has an entry that is a file. -/
theorem file?_of_mode {te : TreeEntry} {ct : Commitable} (hc : ct.change ≠ .delete)
    (hm : te.mode = getCtFileMode ct) (hb : ct.newBlob = some te.id) : AppliedTo ct te.file? := by
  unfold AppliedTo TreeEntry.file? Commitable.effect
  rw [hm, (kindOf_getCtFileMode ct).2, (kindOf_getCtFileMode ct).1, if_neg Bool.false_ne_true,
    if_neg hc, hb]
  exact ⟨rfl, fun h => nomatch h⟩

/-- No two files have the same path. -/
def Distinct (cts : List Commitable) : Prop :=
  ∀ ct ∈ cts, ∀ ct' ∈ cts, ct.names = ct'.names → ct = ct'

theorem Changes.fits {bt : Option (List TreeEntry)} {te : TreeEntry} {ct : Commitable}
    (hc : Changes b te ct) (hbt : entryOf bt [te.name] = some te) (hdir : ¬S_ISDIR te.mode)
    (hs : ¬te.isSubmodule) :
    Fits bt [te.name] ct :=
  (fits_singleton_iff hc.1).mpr ⟨te, hbt, hdir, hs, hc.2.2⟩

namespace Level

variable {bt : Option (List TreeEntry)} {fate : TreeEntry → Option TreeEntry}
  {paths : List TreeEntry} {n : Name}

theorem mem_of_entryOf (hbt : ∀ es ∈ bt, NameOrder es) {te : TreeEntry}
    (h : entryOf bt [n] = some te) : te ∈ bt.getD [] ∧ te.name = n := by
  cases bt with
  | none => exact nomatch h
  | some es => exact (findEntryByName_eq_some_iff (hbt es rfl)).mp h

theorem entryOf_of_mem (hbt : ∀ es ∈ bt, NameOrder es) {te : TreeEntry} (h : te ∈ bt.getD []) :
    entryOf bt [te.name] = some te := by
  cases bt with
  | none => exact absurd h List.not_mem_nil
  | some es => exact findEntryByName_of_mem (hbt es rfl) h

/-- **What an entry of the list can be**, at a name the base tree has. -/
theorem origin_of_some (h : Level cts b bt fate paths) (hbt : ∀ es ∈ bt, NameOrder es)
    {te te₀ : TreeEntry} (hte : te ∈ paths) (h₀ : entryOf bt [te.name] = some te₀) :
    (∃ ct ∈ cts, ct.change = .add ∧ ct.names = b ++ [te.name] ∧ te.mode = getCtFileMode ct
      ∧ ct.newBlob = some te.id) ∨ fate te₀ = some te := by
  rcases h.origin te hte with hnew | ⟨te₁, hte₁, hfate⟩
  · cases hnew with
    | file hct hadd hn hblob => exact Or.inl ⟨_, hct, hadd, hn, rfl, hblob⟩
    | dir hnone => exact absurd (hnone.symm.trans h₀) (fun h => nomatch h)
  · refine Or.inr ?_
    have hname := ((h.carried te₁ hte₁).1 |> fun hc => (hfate ▸ hc).name_eq)
    have h₁ := entryOf_of_mem hbt hte₁
    rw [← hname, h₀] at h₁
    rwa [Option.some.inj h₁]

/-- And at a name it does not have. -/
theorem origin_of_none (h : Level cts b bt fate paths) (hbt : ∀ es ∈ bt, NameOrder es)
    {te : TreeEntry} (hte : te ∈ paths) (h₀ : entryOf bt [te.name] = none) :
    New cts b bt te := by
  refine (h.origin te hte).resolve_right ?_
  rintro ⟨te₁, hte₁, hfate⟩
  have hname := ((h.carried te₁ hte₁).1 |> fun hc => (hfate ▸ hc).name_eq)
  have h₁ := entryOf_of_mem hbt hte₁
  rw [← hname, h₀] at h₁
  exact nomatch h₁

/-- **An added file is found** in the list. -/
theorem find_added (h : Level cts b bt fate paths) {ct : Commitable} (hct : ct ∈ cts)
    (ha : ct.change = .add) (hn : ct.names = b ++ [n]) :
    ∃ te, findEntryByName paths n.val = some te ∧ te.mode = getCtFileMode ct
      ∧ ct.newBlob = some te.id := by
  obtain ⟨te, hte, rfl, hm, hb⟩ := h.addedFile ct hct ha n hn
  exact ⟨te, findEntryByName_of_mem h.order hte, hm, hb⟩

/-- **Files of the directory itself** that fit are applied. -/
theorem leaf_applied (h : Level cts b bt fate paths) (hbt : ∀ es ∈ bt, NameOrder es)
    (hd : Distinct cts) {ct : Commitable} (hct : ct ∈ cts) (hn : ct.names = b ++ [n])
    (hf : Fits bt [n] ct) : AppliedTo ct (fileAt paths [n]) := by
  rw [fileAt_singleton]
  by_cases ha : ct.change = .add
  · obtain ⟨te, hte, hm, hb⟩ := h.find_added hct ha hn
    rw [hte, Option.bind_some]
    exact file?_of_mode (by rw [ha]; exact fun h => nomatch h) hm hb
  · obtain ⟨te₀, hte₀, hdir, hs, hbase⟩ := (fits_singleton_iff ha).mp hf
    obtain ⟨hmem, rfl⟩ := mem_of_entryOf hbt hte₀
    have hchanges : Changes b te₀ ct := ⟨ha, hn, hbase⟩
    obtain ⟨hcarried, hin⟩ := h.carried te₀ hmem
    generalize hfate : fate te₀ = r at hcarried hin
    cases hcarried with
    | submodule hs' => exact absurd hs' hs
    | untouched hdir' => exact absurd hdir' hdir
    | subtree hdir' => exact absurd hdir' hdir
    | emptied hdir' => exact absurd hdir' hdir
    | unchanged _ _ hno => exact absurd hchanges (hno ct hct)
    | modified _ _ hct' hc' hmod hblob =>
      obtain rfl := hd _ hct' _ hct (hc'.2.1.trans hn.symm)
      rw [findEntryByName_of_mem h.order (hin _ rfl), Option.bind_some]
      exact file?_of_mode (by rw [hmod]; exact fun h => nomatch h) rfl hblob
    | deleted _ _ hct' hc' hdel =>
      obtain rfl := hd _ hct' _ hct (hc'.2.1.trans hn.symm)
      rw [AppliedTo, Commitable.effect, if_pos hdel]
      refine ⟨?_, fun _ => hdel⟩
      cases hfind : findEntryByName paths te₀.name.val with
      | none => rfl
      | some te =>
        obtain ⟨hte, hname⟩ := (findEntryByName_eq_some_iff h.order).mp hfind
        rcases h.origin_of_some hbt hte (by rw [hname]; exact hte₀) with
          ⟨ct'', hct'', hadd, hn'', -⟩ | hf'
        · rw [hname] at hn''
          obtain rfl := hd _ hct'' _ hct (hn''.trans hn.symm)
          exact absurd hadd ha
        · rw [hfate] at hf'
          exact nomatch hf'

/-- **All others** are as they were. -/
theorem leaf_others (h : Level cts b bt fate paths) (hbt : ∀ es ∈ bt, NameOrder es)
    (hno : ∀ ct ∈ cts, ct.names = b ++ [n] → ¬Fits bt [n] ct) :
    fileAt paths [n] = filesOf bt [n] := by
  have hnofile : ∀ ct ∈ cts, ct.change = .add → ct.names ≠ b ++ [n] :=
    fun ct hct ha hn => hno ct hct hn (fits_singleton_of_add ha)
  rw [fileAt_singleton, filesOf_singleton]
  cases h₀ : entryOf bt [n] with
  | none =>
    rw [Option.bind_none]
    cases hfind : findEntryByName paths n.val with
    | none => rfl
    | some te =>
      obtain ⟨hte, rfl⟩ := (findEntryByName_eq_some_iff h.order).mp hfind
      rw [Option.bind_some]
      cases h.origin_of_none hbt hte h₀ with
      | file hct ha hn => exact absurd hn (hnofile _ hct ha)
      | dir => exact file?_eq_none_iff.mpr (show S_ISDIR S_IFDIR = true by decide)
  | some te₀ =>
    obtain ⟨hmem, rfl⟩ := mem_of_entryOf hbt h₀
    obtain ⟨hcarried, hin⟩ := h.carried te₀ hmem
    rw [Option.bind_some]
    generalize hfate : fate te₀ = r at hcarried hin
    cases hcarried with
    | submodule hs => rw [findEntryByName_of_mem h.order (hin _ rfl), Option.bind_some]
    | untouched hdir => rw [findEntryByName_of_mem h.order (hin _ rfl), Option.bind_some]
    | unchanged => rw [findEntryByName_of_mem h.order (hin _ rfl), Option.bind_some]
    | @subtree _ _ _ _ _ id hdir =>
      have hfind := findEntryByName_of_mem h.order (hin _ rfl)
      rw [show findEntryByName paths te₀.name.val = some { te₀ with id } from hfind,
        Option.bind_some, file?_eq_none_iff.mpr hdir]
      exact file?_eq_none_iff.mpr hdir
    | emptied hdir =>
      rw [file?_eq_none_iff.mpr hdir]
      cases hfind : findEntryByName paths te₀.name.val with
      | none => rfl
      | some te =>
        obtain ⟨hte, hname⟩ := (findEntryByName_eq_some_iff h.order).mp hfind
        rcases h.origin_of_some hbt hte (by rw [hname]; exact h₀) with
          ⟨ct, hct, ha, hn, -⟩ | hf
        · rw [hname] at hn
          exact absurd hn (hnofile ct hct ha)
        · rw [hfate] at hf
          exact nomatch hf
    | modified hdir hs hct hc => exact absurd (Changes.fits hc h₀ hdir hs) (hno _ hct hc.2.1)
    | deleted hdir hs hct hc => exact absurd (Changes.fits hc h₀ hdir hs) (hno _ hct hc.2.1)

end Level

/-! ## Below a name -/

/-- The entries of the directory at a name. -/
def dirEntries (paths : List TreeEntry) (n : Name) : List TreeEntry :=
  ((findEntryByName paths n.val).bind TreeEntry.subtree).getD []

/-- A path below a directory is looked up in the entries of that directory. -/
theorem entryAt_eq_dirEntries (paths : List TreeEntry) (n m : Name) (path : List Name) :
    entryAt paths (n :: m :: path) = entryAt (dirEntries paths n) (m :: path) := by
  have hnil : ∀ q : List Name, entryAt [] (m :: q) = none := by
    intro q
    cases q <;> rfl
  rw [entryAt_cons, dirEntries]
  cases findEntryByName paths n.val with
  | none => exact (hnil path).symm
  | some te =>
    rw [Option.bind_some, Option.bind_some]
    cases te.subtree with
    | none => exact (hnil path).symm
    | some es => rfl

theorem fileAt_eq_dirEntries (paths : List TreeEntry) (n m : Name) (path : List Name) :
    fileAt paths (n :: m :: path) = fileAt (dirEntries paths n) (m :: path) := by
  unfold fileAt
  rw [entryAt_eq_dirEntries]

theorem dirEntries_of_find {paths : List TreeEntry} {n : Name} {te : TreeEntry}
    (h : findEntryByName paths n.val = some te) : dirEntries paths n = te.subtree.getD [] := by
  rw [dirEntries, h, Option.bind_some]

theorem entryAt_nil (path : List Name) : entryAt [] path = none := by
  rcases path with _ | ⟨n, _ | ⟨m, path⟩⟩ <;> rfl

theorem fileAt_of_nil (path : List Name) : fileAt [] path = none := by
  rw [fileAt, entryAt_nil, Option.bind_none]

/-- Where nothing is changed, things are as they were. -/
theorem content_of_untouched {sub : Option (List TreeEntry)}
    (h : ∀ ct ∈ cts, ∀ m rest, ct.names ≠ b ++ m :: rest) : Content cts b sub (sub.getD []) := by
  have hentry : ∀ path, entryAt (sub.getD []) path = entryOf sub path := by
    intro path
    cases sub with
    | none => exact entryAt_nil path
    | some es => rfl
  refine ⟨fun ct hct n path hn => absurd hn (h ct hct n path), fun path _ => ?_,
    fun path te _ hte => ⟨te, (hentry path).trans hte, rfl, rfl⟩,
    fun path te hte hs => ⟨te, (hentry path).symm.trans hte, hs⟩⟩
  cases sub with
  | none => exact fileAt_of_nil path
  | some es => rfl

/-- Where nothing was and nothing is added, nothing is. -/
theorem content_nil (h : ∀ ct ∈ cts, ct.change = .add → ∀ m rest, ct.names ≠ b ++ m :: rest) :
    Content cts b none [] := by
  refine ⟨fun ct hct n path hn hf => ?_, fun path _ => fileAt_of_nil path,
    fun path te _ hte => (nomatch hte), fun path te hte => ?_⟩
  · by_cases ha : ct.change = .add
    · exact absurd hn (h ct hct ha n path)
    · unfold Fits at hf
      rw [if_neg ha] at hf
      obtain ⟨kind, id, hfile, -⟩ := hf
      exact nomatch hfile
  · rw [entryAt_nil] at hte
    exact nomatch hte

namespace Level

variable {bt : Option (List TreeEntry)} {fate : TreeEntry → Option TreeEntry}
  {paths : List TreeEntry} {n : Name}

/-- Below the name of a file of the base tree there is nothing. -/
theorem dirEntries_of_file (h : Level cts b bt fate paths) (hbt : ∀ es ∈ bt, NameOrder es)
    {te₀ : TreeEntry} (h₀ : entryOf bt [n] = some te₀) (hdir : ¬S_ISDIR te₀.mode) :
    dirEntries paths n = [] := by
  rw [dirEntries]
  cases hfind : findEntryByName paths n.val with
  | none => rfl
  | some te =>
    obtain ⟨hte, rfl⟩ := (findEntryByName_eq_some_iff h.order).mp hfind
    rw [Option.bind_some, subtree_of_not_dir]
    · rfl
    · rcases h.origin_of_some hbt hte h₀ with ⟨ct, -, -, -, hm, -⟩ | hf
      · rw [hm, (kindOf_getCtFileMode ct).2]
        exact Bool.false_ne_true
      · have hc := (h.carried te₀ (mem_of_entryOf hbt h₀).1).1
        rw [hf] at hc
        rwa [hc.isDir_eq]

/-- **Below any other name** there is the content made of what was there. -/
theorem content_dirEntries (h : Level cts b bt fate paths) (hbt : ∀ es ∈ bt, NameOrder es)
    (hdir : ∀ te₀, entryOf bt [n] = some te₀ → S_ISDIR te₀.mode) :
    Content cts (b ++ [n]) ((entryOf bt [n]).bind TreeEntry.subtree) (dirEntries paths n) := by
  cases h₀ : entryOf bt [n] with
  | none =>
    rw [Option.bind_none]
    have hnil : (∀ te ∈ paths, te.name = n → ¬S_ISDIR te.mode) → dirEntries paths n = []
        ∧ Content cts (b ++ [n]) none [] := by
      intro hno
      constructor
      · rw [dirEntries]
        cases hfind : findEntryByName paths n.val with
        | none => rfl
        | some te =>
          obtain ⟨hte, hname⟩ := (findEntryByName_eq_some_iff h.order).mp hfind
          rw [Option.bind_some, subtree_of_not_dir (hno te hte hname)]
          rfl
      · refine content_nil (fun ct hct ha m rest hn => ?_)
        rw [List.append_assoc] at hn
        obtain ⟨te, hte, hname, hd⟩ := h.addedDir ct hct ha n m rest hn h₀
        exact hno te hte hname hd
    by_cases hex : ∃ te ∈ paths, te.name = n ∧ S_ISDIR te.mode
    · obtain ⟨te, hte, rfl, hd⟩ := hex
      rw [dirEntries_of_find (findEntryByName_of_mem h.order hte)]
      cases h.origin_of_none hbt hte h₀ with
      | @file ct => rw [(kindOf_getCtFileMode ct).2] at hd; exact absurd hd Bool.false_ne_true
      | @dir n id es _ ho _ hcontent =>
        rw [TreeEntry.subtree, if_pos hd, ho]
        exact hcontent
    · obtain ⟨hnil, hcontent⟩ := hnil (fun te hte hname hd => hex ⟨te, hte, hname, hd⟩)
      rw [hnil]
      exact hcontent
  | some te₀ =>
    have hd₀ := hdir te₀ h₀
    rw [Option.bind_some]
    obtain ⟨hmem, rfl⟩ := mem_of_entryOf hbt h₀
    obtain ⟨hcarried, hin⟩ := h.carried te₀ hmem
    generalize hfate : fate te₀ = r at hcarried hin
    cases hcarried with
    | submodule hs => exact absurd hd₀ (not_dir_of_isSubmodule hs)
    | unchanged hdir' => exact absurd hd₀ hdir'
    | modified hdir' => exact absurd hd₀ hdir'
    | deleted hdir' => exact absurd hd₀ hdir'
    | untouched _ hno =>
      rw [dirEntries_of_find (findEntryByName_of_mem h.order (hin _ rfl))]
      refine content_of_untouched (fun ct hct m rest hn => hno ct hct m rest ?_)
      rw [hn, List.append_assoc]
      rfl
    | @subtree _ _ _ es es' id _ _ _ ho ho' _ hcontent =>
      have hfind : findEntryByName paths te₀.name.val = some { te₀ with id } :=
        findEntryByName_of_mem h.order (hin _ rfl)
      rw [dirEntries_of_find hfind, TreeEntry.subtree, TreeEntry.subtree, if_pos hd₀, if_pos hd₀,
        ho, ho']
      exact hcontent
    | @emptied _ _ _ es _ _ _ ho hcontent =>
      have hnil : dirEntries paths te₀.name = [] := by
        rw [dirEntries]
        cases hfind : findEntryByName paths te₀.name.val with
        | none => rfl
        | some te =>
          obtain ⟨hte, hname⟩ := (findEntryByName_eq_some_iff h.order).mp hfind
          rcases h.origin_of_some hbt hte (by rw [hname]; exact h₀) with
            ⟨ct, -, -, -, hm, -⟩ | hf
          · rw [Option.bind_some, subtree_of_not_dir]
            · rfl
            · rw [hm, (kindOf_getCtFileMode ct).2]
              exact Bool.false_ne_true
          · rw [hfate] at hf
            cases hf
      rw [hnil, TreeEntry.subtree, if_pos hd₀, ho]
      exact hcontent

/-- **The content of a list of entries**, from where its entries are from. -/
theorem content (h : Level cts b bt fate paths) (hbt : ∀ es ∈ bt, NameOrder es)
    (hd : Distinct cts) : Content cts b bt paths where
  applied := by
    intro ct hct n path hn hf
    cases path with
    | nil => exact h.leaf_applied hbt hd hct hn hf
    | cons m path =>
      have hn' : ct.names = (b ++ [n]) ++ m :: path := by rw [hn, List.append_assoc]; rfl
      rw [fits_cons_iff] at hf
      rw [fileAt_eq_dirEntries]
      cases h₀ : entryOf bt [n] with
      | none =>
        have hc := h.content_dirEntries (n := n) hbt (fun te h => (by cases h₀.symm.trans h))
        rw [h₀] at hf hc
        refine hc.applied ct hct m path hn' ?_
        unfold Fits
        rw [if_pos hf]
        exact fun _ _ _ _ => rfl
      | some te₀ =>
        rw [h₀] at hf
        have hc := h.content_dirEntries (n := n) hbt
          (fun te h => by rw [← Option.some.inj (h₀.symm.trans h)]; exact hf.1)
        rw [h₀] at hc
        exact hc.applied ct hct m path hn' hf.2
  others := by
    intro path hno
    rcases path with _ | ⟨n, _ | ⟨m, path⟩⟩
    · exact filesOf_nil.symm
    · exact h.leaf_others hbt hno
    · rw [fileAt_eq_dirEntries, filesOf_cons]
      cases h₀ : entryOf bt [n] with
      | none =>
        have hc := h.content_dirEntries (n := n) hbt (fun te h => (by cases h₀.symm.trans h))
        rw [h₀] at hc
        refine hc.others (m :: path) (fun ct hct hn hf => hno ct hct ?_ ?_)
        · rw [hn, List.append_assoc]
          rfl
        · rw [fits_cons_iff, h₀]
          dsimp only
          by_contra ha
          unfold Fits at hf
          rw [if_neg ha] at hf
          obtain ⟨kind, id, hfile, -⟩ := hf
          cases hfile
      | some te₀ =>
        rw [Option.bind_some]
        by_cases hdir : S_ISDIR te₀.mode
        · have hc := h.content_dirEntries (n := n) hbt
            (fun te h => by rw [← Option.some.inj (h₀.symm.trans h)]; exact hdir)
          rw [h₀] at hc
          refine hc.others (m :: path) (fun ct hct hn hf => hno ct hct ?_ ?_)
          · rw [hn, List.append_assoc]
            rfl
          · rw [fits_cons_iff, h₀]
            exact ⟨hdir, hf⟩
        · rw [h.dirEntries_of_file hbt h₀ hdir, fileAt_of_nil, subtree_of_not_dir hdir]
          rfl
  untouched := by
    intro path te hno hte
    rcases path with _ | ⟨n, _ | ⟨m, path⟩⟩
    · cases bt <;> cases hte
    · obtain ⟨hmem, rfl⟩ := mem_of_entryOf hbt hte
      obtain ⟨hcarried, hin⟩ := h.carried te hmem
      have hbelow : ∀ ct ∈ cts, ∀ m rest, ct.names ≠ b ++ te.name :: m :: rest := by
        intro ct hct m rest hn
        refine hno ct hct ⟨m :: rest, ?_⟩
        rw [hn, List.append_assoc]
        rfl
      generalize fate te = r at hcarried hin
      cases hcarried with
      | submodule => exact ⟨te, findEntryByName_of_mem h.order (hin _ rfl), rfl, rfl⟩
      | untouched => exact ⟨te, findEntryByName_of_mem h.order (hin _ rfl), rfl, rfl⟩
      | unchanged => exact ⟨te, findEntryByName_of_mem h.order (hin _ rfl), rfl, rfl⟩
      | subtree _ hct hn => exact absurd hn (hbelow _ hct _ _)
      | emptied _ hct hn => exact absurd hn (hbelow _ hct _ _)
      | modified _ _ hct hc => exact absurd (by rw [hc.2.1]) (hno _ hct)
      | deleted _ _ hct hc => exact absurd (by rw [hc.2.1]) (hno _ hct)
    · rw [entryAt_eq_dirEntries]
      rw [entryOf_cons] at hte
      obtain ⟨te₀, h₀, hte⟩ := Option.bind_eq_some_iff.mp hte
      have hdir : S_ISDIR te₀.mode := by
        by_contra hdir
        rw [subtree_of_not_dir hdir] at hte
        cases hte
      have hc := h.content_dirEntries (n := n) hbt
        (fun te h => by rw [← Option.some.inj (h₀.symm.trans h)]; exact hdir)
      rw [h₀] at hc
      refine hc.untouched (m :: path) te (fun ct hct hpre => hno ct hct ?_) hte
      rwa [List.append_assoc] at hpre
  nonempty := by
    intro path te hte hs
    rcases path with _ | ⟨n, _ | ⟨m, path⟩⟩
    · cases hte
    · obtain ⟨hmem, rfl⟩ := (findEntryByName_eq_some_iff h.order).mp hte
      have hdir : S_ISDIR te.mode := by
        by_contra hdir
        rw [subtree_of_not_dir hdir] at hs
        cases hs
      rcases h.origin te hmem with hnew | ⟨te₀, hte₀, hfate⟩
      · cases hnew with
        | @file ct => rw [(kindOf_getCtFileMode ct).2] at hdir; exact absurd hdir Bool.false_ne_true
        | dir _ ho hne =>
          rw [TreeEntry.subtree, if_pos hdir, ho] at hs
          exact absurd (Option.some.inj hs) hne
      · have h₀ := entryOf_of_mem hbt hte₀
        have hcarried := (h.carried te₀ hte₀).1
        rw [hfate] at hcarried
        rw [← hcarried.name_eq] at h₀
        refine ⟨te₀, h₀, ?_⟩
        cases hcarried with
        | submodule => exact hs
        | untouched => exact hs
        | unchanged => exact hs
        | subtree _ _ _ _ ho' hne =>
          rw [TreeEntry.subtree, if_pos hdir, ho'] at hs
          exact absurd (Option.some.inj hs) hne
        | modified => rw [(kindOf_getCtFileMode _).2] at hdir; exact absurd hdir Bool.false_ne_true
    · rw [entryAt_eq_dirEntries] at hte
      cases h₀ : entryOf bt [n] with
      | none =>
        have hc := h.content_dirEntries (n := n) hbt (fun te h => (by cases h₀.symm.trans h))
        rw [h₀] at hc
        obtain ⟨te', hte', -⟩ := hc.nonempty (m :: path) te hte hs
        cases hte'
      | some te₀ =>
        by_cases hdir : S_ISDIR te₀.mode
        · have hc := h.content_dirEntries (n := n) hbt
            (fun te h => by rw [← Option.some.inj (h₀.symm.trans h)]; exact hdir)
          rw [h₀] at hc
          rw [entryOf_cons, h₀]
          exact hc.nonempty (m :: path) te hte hs
        · rw [h.dirEntries_of_file hbt h₀ hdir, entryAt_nil] at hte
          cases hte

end Level

/-! ## The tree that is written -/

/-- The same entry, up to a mode that was made uniform. -/
structure SameEntry (te te' : TreeEntry) : Prop where
  id : te'.id = te.id
  kind : kindOf te'.mode = kindOf te.mode
  dir : S_ISDIR te'.mode = S_ISDIR te.mode

theorem Written.same {te te' : TreeEntry} (h : Written te te') :
    SameEntry te te' ∧ te'.name = te.name := by
  obtain ⟨mode, hmode, rfl⟩ := h
  obtain ⟨hkind, hdir⟩ := kindOf_teMode2str hmode
  exact ⟨⟨rfl, hkind, hdir⟩, rfl⟩

theorem SameEntry.file? {te te' : TreeEntry} (h : SameEntry te te') : te'.file? = te.file? := by
  unfold TreeEntry.file?
  rw [h.id, h.kind, h.dir]

theorem SameEntry.subtree {te te' : TreeEntry} (h : SameEntry te te') :
    te'.subtree = te.subtree := by
  unfold TreeEntry.subtree
  rw [h.id, h.dir]

/-- Two entries that may be missing are the same. -/
def SameOrNone (te? te'? : Option TreeEntry) : Prop :=
  (te? = none ∧ te'? = none) ∨ ∃ te te', te? = some te ∧ te'? = some te' ∧ SameEntry te te'

section Written

variable {paths es : List TreeEntry}

/-- **Reading back what was written** gives the same entry at every path. -/
theorem entryAt_written (hpaths : NameOrder paths) (hes : NameOrder es)
    (hto : ∀ te ∈ paths, ∃ te' ∈ es, Written te te')
    (hfrom : ∀ te' ∈ es, ∃ te ∈ paths, Written te te') (path : List Name) :
    SameOrNone (entryAt paths path) (entryAt es path) := by
  have hname : ∀ n : Name, SameOrNone (findEntryByName paths n.val) (findEntryByName es n.val) := by
    intro n
    cases hp : findEntryByName paths n.val with
    | some te =>
      obtain ⟨hte, rfl⟩ := (findEntryByName_eq_some_iff hpaths).mp hp
      obtain ⟨te', hte', hw⟩ := hto te hte
      obtain ⟨hsame, hn⟩ := hw.same
      exact Or.inr ⟨te, te', rfl, (findEntryByName_eq_some_iff hes).mpr ⟨hte', hn⟩, hsame⟩
    | none =>
      refine Or.inl ⟨rfl, (findEntryByName_eq_none_iff hes).mpr (fun te' hte' hn => ?_)⟩
      obtain ⟨te, hte, hw⟩ := hfrom te' hte'
      exact (findEntryByName_eq_none_iff hpaths).mp hp te hte (hw.same.2.symm.trans hn)
  rcases path with _ | ⟨n, _ | ⟨m, path⟩⟩
  · exact Or.inl ⟨rfl, rfl⟩
  · exact hname n
  · rw [entryAt_cons, entryAt_cons]
    rcases hname n with ⟨hp, he⟩ | ⟨te, te', hp, he, hsame⟩
    · rw [hp, he]
      exact Or.inl ⟨rfl, rfl⟩
    · rw [hp, he, Option.bind_some, Option.bind_some, hsame.subtree]
      cases te.subtree.bind (entryAt · (m :: path)) with
      | none => exact Or.inl ⟨rfl, rfl⟩
      | some te₁ => exact Or.inr ⟨te₁, te₁, rfl, rfl, rfl, rfl, rfl⟩

/-- **The content of the tree** that is written is that of the list. -/
theorem Content.written {bt : Option (List TreeEntry)} (h : Content cts b bt paths)
    (hsame : ∀ path, SameOrNone (entryAt paths path) (entryAt es path)) :
    Content cts b bt es := by
  have hfile : ∀ path, fileAt es path = fileAt paths path := by
    intro path
    unfold fileAt
    rcases hsame path with ⟨hp, he⟩ | ⟨te, te', hp, he, hs⟩
    · rw [hp, he]
    · rw [hp, he, Option.bind_some, Option.bind_some, hs.file?]
  refine ⟨fun ct hct n path hn hf => by rw [hfile]; exact h.applied ct hct n path hn hf,
    fun path hno => (hfile path).trans (h.others path hno), fun path te hno hte => ?_,
    fun path te' hte' hsub => ?_⟩
  · obtain ⟨te₁, hte₁, hid, hkind⟩ := h.untouched path te hno hte
    rcases hsame path with ⟨hp, -⟩ | ⟨te₂, te', hp, he, hs⟩
    · rw [hp] at hte₁
      exact nomatch hte₁
    · obtain rfl := Option.some.inj (hp.symm.trans hte₁)
      exact ⟨te', he, hs.id.trans hid, hs.kind.trans hkind⟩
  · rcases hsame path with ⟨-, he⟩ | ⟨te, te₁, hp, he, hs⟩
    · rw [he] at hte'
      exact nomatch hte'
    · obtain rfl := Option.some.inj (he.symm.trans hte')
      exact h.nonempty path te hp (hs.subtree.symm.trans hsub)

end Written

/-- **From the entries of a directory to its tree.** -/
theorem content_of_level {bt : Option (List TreeEntry)} {fate : TreeEntry → Option TreeEntry}
    {paths : List TreeEntry} {id : Object} (h : Level cts b bt fate paths)
    (hbt : ∀ es ∈ bt, NameOrder es) (hd : Distinct cts) (hc : gotObjectTreeCreate paths = .ok id) :
    ∃ es, gotObjectOpenAsTree id = .ok es ∧ Content cts b bt es ∧ (es = [] ↔ paths = []) := by
  obtain ⟨es, ho, hto, hfrom⟩ := open_gotObjectTreeCreate h.order.nodup hc
  refine ⟨es, ho, (h.content hbt hd).written (entryAt_written h.order (open_order ho) hto hfrom),
    ?_⟩
  rw [List.eq_nil_iff_forall_not_mem, List.eq_nil_iff_forall_not_mem]
  constructor
  · intro hno te hte
    obtain ⟨te', hte', -⟩ := hto te hte
    exact hno te' hte'
  · intro hno te' hte'
    obtain ⟨te, hte, -⟩ := hfrom te' hte'
    exact hno te hte

end Got
