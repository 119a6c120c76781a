import Got.FileIndex.MergeWalk

/-!
# What a comparison has to report

A comparison of the file index with something nested below a path has to report
every entry below the path and every item, once and in the order of paths
(`ReportsAll`). In the terms of lists, the report has to be a join of the
entries with the items (`reportsAll_iff`).

It is one if the walk sees what it has to see (`SeesAll`, `law_iff`). It may see
too much: an entry that is marked for removal, if it is the first one. It may
see too little: entries that are not on disk yet, and entries that have the path
of an item that is to be skipped. And it forgets to skip an item that is alone
as long as it sees entries after it.
-/

namespace Got

open OrderedList MergeJoin

variable {δ : Type}

/-- The path of what is reported. -/
def DiffReport.relpath (name : δ → Name) (fi : Fileindex) : DiffReport δ → Str
  | .oldNew ie _ _ | .old ie _ => (fi.entry ie).path
  | .new item path => relPath (path ++ [name item])

namespace Fileindex

/-- **All is reported**: every entry that is written below a path, and every
item, once and in the order of paths, with the callback that belongs to it. -/
structure ReportsAll (name : δ → Name) (fi : Fileindex) (path : List Name)
    (items : List (List Name × δ)) (rs : List (DiffReport δ)) : Prop where
  inOrder : rs.Pairwise (fun r r' => gotPathCmp (r.relpath name fi) (r'.relpath name fi) = .lt)
  oldNew_iff : ∀ ie item p, .oldNew ie item p ∈ rs ↔
    (ie ∈ fi.live ∧ gotPathIsChild (fi.entry ie).path (relPath path))
      ∧ (p ++ [name item], item) ∈ items ∧ (fi.entry ie).path = relPath (p ++ [name item])
  old_iff : ∀ ie, (∃ p, .old ie p ∈ rs) ↔
    (ie ∈ fi.live ∧ gotPathIsChild (fi.entry ie).path (relPath path))
      ∧ ∀ x ∈ items, (fi.entry ie).path ≠ relPath x.1
  new_iff : ∀ item p, .new item p ∈ rs ↔ (p ++ [name item], item) ∈ items
    ∧ ∀ ie, ie ∈ fi.live ∧ gotPathIsChild (fi.entry ie).path (relPath path) →
      (fi.entry ie).path ≠ relPath (p ++ [name item])

/-- The entries below a path that the walk sees. -/
def seen (fi : Fileindex) (path : List Name) : List ℕ :=
  fi.walked.filter (fun ie => gotPathIsChild (fi.entry ie).path (relPath path))

/-- The entries below a path that are written. -/
def liveBelow (fi : Fileindex) (path : List Name) : List ℕ :=
  fi.live.filter (fun ie => gotPathIsChild (fi.entry ie).path (relPath path))

/-- **The walk sees what it has to see.** Without the entries that have the
path of an item to be skipped, it sees those that are written. And each of these
items is skipped: it has the path of an entry that is seen, or the walk sees
nothing after it. -/
structure SeesAll (skip : δ → Bool) (fi : Fileindex) (path : List Name)
    (items : List (List Name × δ)) : Prop where
  entries_eq : (fi.seen path).filter
      (fun ie => ¬∃ x ∈ items, skip x.2 ∧ (fi.entry ie).path = relPath x.1) = fi.liveBelow path
  skipped : ∀ x ∈ items, skip x.2 → (∃ ie ∈ fi.seen path, (fi.entry ie).path = relPath x.1)
    ∨ ∀ ie ∈ fi.walkedFrom (relPath path), gotPathCmp (fi.entry ie).path (relPath x.1) ≠ .gt

/-- Where the walk begins: at the first child of the path. -/
def walkStart (fi : Fileindex) (path : Str) : Option ℕ :=
  firstChild fi path fi.entries.length fi.entries.head?

end Fileindex

/-! ## Reports as a join -/

theorem gotPathCmp_relPath (p q : List Name) : gotPathCmp (relPath p) (relPath q) = linCmp p q :=
  gotPathCmp_canonicalPath false false p q

theorem relPath_injective {p q : List Name} : relPath p = relPath q ↔ p = q := by
  refine ⟨fun h => ?_, fun h => h ▸ rfl⟩
  rw [← linCmp_eq_eq_iff, ← gotPathCmp_relPath, h, gotPathCmp_relPath, linCmp_self]

section

variable {name : δ → Name} {skip : δ → Bool} {fi : Fileindex} {names : ℕ → List Name}
  {p : List Name} {items : List (List Name × δ)} {rs : List (DiffReport δ)} {w : List ℕ}

/-- The path of a report is its key. -/
theorem DiffReport.relpath_eq (hnames : ∀ ie, (fi.entry ie).path = relPath (names ie))
    (r : DiffReport δ) :
    r.relpath name fi = relPath ((r.joined name).key names Prod.fst) := by
  cases r with
  | oldNew ie item p => exact hnames ie
  | old ie p => exact hnames ie
  | new item p => rfl

/-- A report of both sides of a joined walk comes from the entry of the index and the item of the
name. -/
theorem mem_joined_both {ie : ℕ} {x : List Name × δ} :
    .both ie x ∈ rs.map (DiffReport.joined name) ↔
      ∃ q, .oldNew ie x.2 q ∈ rs ∧ x.1 = q ++ [name x.2] := by
  obtain ⟨y, item⟩ := x
  rw [List.mem_map]
  constructor
  · rintro ⟨r, hr, h⟩
    cases r with
    | oldNew ie' item' q =>
      obtain ⟨rfl, rfl, rfl⟩ : ie' = ie ∧ q ++ [name item'] = y ∧ item' = item := by
        simpa [DiffReport.joined] using h
      exact ⟨q, hr, rfl⟩
    | old | new => cases h
  · rintro ⟨q, hr, hy⟩
    obtain rfl : y = q ++ [name item] := hy
    exact ⟨_, hr, rfl⟩

/-- A report of the index alone comes from the same entry. -/
theorem mem_joined_left {ie : ℕ} :
    .left ie ∈ rs.map (DiffReport.joined name) ↔ ∃ q, .old ie q ∈ rs := by
  rw [List.mem_map]
  constructor
  · rintro ⟨r, hr, h⟩
    cases r with
    | old ie' q =>
      obtain rfl := Joined.left.inj h
      exact ⟨q, hr⟩
    | oldNew | new => exact nomatch h
  · rintro ⟨q, hr⟩
    exact ⟨_, hr, rfl⟩

/-- A report of the other side alone comes from the item of the name. -/
theorem mem_joined_right {x : List Name × δ} :
    .right x ∈ rs.map (DiffReport.joined name) ↔ ∃ q, .new x.2 q ∈ rs ∧ x.1 = q ++ [name x.2] := by
  obtain ⟨y, item⟩ := x
  rw [List.mem_map]
  constructor
  · rintro ⟨r, hr, h⟩
    cases r with
    | new item' q =>
      obtain ⟨rfl, rfl⟩ : q ++ [name item'] = y ∧ item' = item := by
        simpa [DiffReport.joined] using h
      exact ⟨q, hr, rfl⟩
    | oldNew | old => cases h
  · rintro ⟨q, hr, hy⟩
    obtain rfl : y = q ++ [name item] := hy
    exact ⟨_, hr, rfl⟩

namespace Fileindex

/-- **All is reported** exactly if the reports are a join. -/
theorem reportsAll_iff (hnames : ∀ ie, (fi.entry ie).path = relPath (names ie))
    (hitems : ∀ x ∈ items, ∃ p, x.1 = p ++ [name x.2]) :
    ReportsAll name fi p items rs ↔
      IsJoin names Prod.fst (fi.liveBelow p) items (rs.map (DiffReport.joined name)) := by
  have hlive : ∀ ie, ie ∈ fi.liveBelow p ↔
      ie ∈ fi.live ∧ gotPathIsChild (fi.entry ie).path (relPath p) := fun ie => by
    rw [liveBelow, List.mem_filter]
  have horder : (rs.map (DiffReport.joined name)).Pairwise
        (fun j j' => j.key names Prod.fst < j'.key names Prod.fst)
      ↔ rs.Pairwise (fun r r' => gotPathCmp (r.relpath name fi) (r'.relpath name fi) = .lt) := by
    rw [List.pairwise_map]
    refine iff_of_eq (congrArg (fun R => List.Pairwise R rs) (funext₂ fun r r' => propext ?_))
    rw [r.relpath_eq hnames, r'.relpath_eq hnames, gotPathCmp_relPath, linCmp_eq_lt_iff]
  have hpath : ∀ ie q, (fi.entry ie).path = relPath q ↔ names ie = q := fun ie q => by
    rw [hnames, relPath_injective]
  constructor
  · rintro ⟨hin, hboth, hold, hnew⟩
    refine ⟨horder.mpr hin, fun ie x => ?_, fun ie => ?_, fun x => ?_⟩
    · have := hboth ie x.2
      have := hitems x
      rw [mem_joined_both]
      grind
    · have := hold ie
      rw [mem_joined_left]
      grind
    · have := hnew x.2
      have := hitems x
      rw [mem_joined_right]
      grind
  · rintro ⟨hin, hboth, hleft, hright⟩
    refine ⟨horder.mp hin, fun ie item q => ?_, fun ie => ?_, fun item q => ?_⟩
    · have := hboth ie (q ++ [name item], item)
      rw [mem_joined_both] at this
      grind [List.append_left_inj]
    · have := hleft ie
      rw [mem_joined_left] at this
      grind
    · have := hright (q ++ [name item], item)
      rw [mem_joined_right] at this
      grind [List.append_left_inj]

/-! ## What the walk sees -/

/-- What is below a path comes together. -/
theorem takeWhile_under (hp : p = [] ∨ ∀ a ∈ w, p < names a)
    (hw : w.Pairwise (fun a b => names a < names b)) :
    w.takeWhile (under names p) = w.filter (under names p) := by
  induction w with
  | nil => rfl
  | cons a w ih =>
    obtain ⟨ha, hw⟩ := List.pairwise_cons.mp hw
    by_cases hunder : under names p a
    · rw [List.takeWhile_cons_of_pos hunder, List.filter_cons_of_pos hunder,
        ih (hp.imp_right fun h b hb => h b (List.mem_cons_of_mem a hb)) hw]
    · rw [List.takeWhile_cons_of_neg hunder, List.filter_cons_of_neg hunder]
      refine (List.filter_eq_nil_iff.mpr fun b hb hbelow => ?_).symm
      obtain rfl | ⟨n, s, hs⟩ := isBelow_iff.mp hbelow
      · exact hunder (isBelow_iff.mpr (Or.inl rfl))
      · -- what is before something below the path is below it itself
        exact hunder (isBelow_of_lt (hp.imp_right fun h => h a List.mem_cons_self) (hs ▸ ha b hb))

theorem under_lt {a : ℕ} (h : under names p a) : p = [] ∨ p < names a := by
  obtain rfl | ⟨n, s, hs⟩ := isBelow_iff.mp h
  · exact Or.inl rfl
  · exact Or.inr (hs ▸ lt_append_of_ne_nil p (List.cons_ne_nil n s))

/-- From the first entry below a path on, all come after the path. -/
theorem lt_of_mem_dropWhile_not_under (hw : w.Pairwise (fun a b => names a < names b)) :
    p = [] ∨ ∀ a ∈ w.dropWhile (fun a => ¬under names p a), p < names a := by
  induction w with
  | nil => exact Or.inr fun a ha => absurd ha List.not_mem_nil
  | cons b w ih =>
    obtain ⟨hb, hw⟩ := List.pairwise_cons.mp hw
    by_cases hunder : under names p b
    · rw [List.dropWhile_cons_of_neg (by simpa using hunder)]
      refine (under_lt hunder).imp_right fun hlt a ha => ?_
      rcases List.mem_cons.mp ha with rfl | ha
      · exact hlt
      · exact hlt.trans (hb a ha)
    · rw [List.dropWhile_cons_of_pos (by simpa using hunder)]
      exact ih hw

/-- Nothing below the path is passed over on the way to the first child. -/
theorem filter_dropWhile_not (f : ℕ → Bool) (w : List ℕ) :
    (w.dropWhile (fun a => ¬f a)).filter f = w.filter f := by
  induction w with
  | nil => rfl
  | cons a w ih =>
    by_cases h : f a
    · rw [List.dropWhile_cons_of_neg (by simpa using h)]
    · rw [List.dropWhile_cons_of_pos (by simpa using h), List.filter_cons_of_neg h, ih]

variable {cb : DiffCb δ} {openBelow : List Name → δ → Except GotErr (Option (List δ))}
  {diff : ℕ → DiffLoop δ} {t : Listing δ}

/-- **The names that paths are made of.** -/
theorem exists_names (hfi : fi.Ordered) :
    ∃ names : ℕ → List Name, ∀ ie, (fi.entry ie).path = relPath (names ie) := by
  have hnames : ∀ ie, ∃ ns, (fi.entry ie).path = relPath ns := fun ie =>
    (isEntry_entry hfi.isEntry ie).names
  choose names hnames using hnames
  exact ⟨names, hnames⟩

/-- **Where a comparison begins**, and that it is on the walk from there on. -/
theorem onWalk_walkedFrom (hnames : ∀ ie, (fi.entry ie).path = relPath (names ie))
    (hfi : fi.Ordered) (hshort : ∀ ie ∈ fi.entries, (fi.entry ie).path.length ≤ MAX_PATH_LEN) :
    fi.walkedFrom (relPath p) = fi.walked.dropWhile (fun a => ¬under names p a)
      ∧ fi.walkStart (relPath p) = (fi.walkedFrom (relPath p)).head?
      ∧ OnWalk names (⟨fi, []⟩ : WalkState δ) (fi.walkedFrom (relPath p))
      ∧ (p = [] ∨ ∀ a ∈ fi.walkedFrom (relPath p), p < names a)
      ∧ (fi.walkedFrom (relPath p)).length ≤ fi.entries.length := by
  obtain ⟨hcoming, hhead⟩ := coming_walked hfi
  have hlen : fi.walked.length ≤ fi.entries.length := by
    rw [walked]
    split
    · exact Nat.zero_le _
    · next ie entries hentries =>
      rw [hentries]
      exact Nat.succ_le_succ (List.length_filter_le _ entries)
  have hchild : ∀ ie, gotPathIsChild (fi.entry ie).path (relPath p) = under names p ie :=
    fun ie => by
    rw [hnames, under, isBelow]
  have hfrom : fi.walkedFrom (relPath p) = fi.walked.dropWhile (fun a => ¬under names p a) := by
    simp only [walkedFrom, hchild]
  have hstart : fi.walkStart (relPath p) = (fi.walkedFrom (relPath p)).head? := by
    rw [walkStart, ← hhead, firstChild_eq hfi hcoming hlen]
    rfl
  have hall : OnWalk names (⟨fi, []⟩ : WalkState δ) fi.walked :=
    ⟨hfi, hcoming, fun a _ => hnames a, fun a ha => hnames a ▸ hshort a (hcoming.mem a ha)⟩
  have hw := hall.dropWhile (fun a => ¬under names p a)
  have hp := lt_of_mem_dropWhile_not_under (p := p) hall.inOrder
  rw [← hfrom] at hw hp
  exact ⟨hfrom, hstart, hw, hp, (hfrom ▸ (List.dropWhile_sublist _).length_le).trans hlen⟩

/-- **When all is reported**, by a comparison whose callbacks do not fail, of
what is listed completely, if all paths fit into the bits for their length. -/
theorem law_iff (hwalk : MergeWalk cb name skip openBelow diff)
    (hcb : ∀ rs r fi, ∃ ops, cb rs r fi = .ok ops) (hfi : fi.Ordered)
    (hshort : ∀ ie ∈ fi.entries, (fi.entry ie).path.length ≤ MAX_PATH_LEN)
    (ht : t.Sorted name) {listed : List δ} (hopens : t.Opens name openBelow p listed) {fuel : ℕ}
    (hfuel : fi.entries.length + t.size < fuel) :
    ∃ ie s, diff fuel listed p (fi.walkStart (relPath p)) ⟨fi, []⟩ = .ok (ie, s)
      ∧ (ReportsAll name fi p ((t.flat name p).filter (fun x => !skip x.2)) s.reported
        ↔ SeesAll skip fi p (t.flat name p)) := by
  obtain ⟨names, hnames⟩ := exists_names hfi
  obtain ⟨hfrom, hstart, hw, hp, hlen⟩ := @onWalk_walkedFrom δ fi names p hnames hfi hshort
  have hchild : ∀ ie, gotPathIsChild (fi.entry ie).path (relPath p) = under names p ie :=
    fun ie => by
    rw [hnames, under, isBelow]
  have hseen : (fi.walkedFrom (relPath p)).takeWhile (under names p) = fi.seen p := by
    rw [takeWhile_under hp hw.inOrder, hfrom, filter_dropWhile_not]
    simp only [seen, hchild]
  -- whether there is something more on the walk is known at its beginning
  let more : List Name → Bool := fun x =>
    (fi.walkedFrom (relPath p)).any (fun a => x < names a)
  have hmore : ∀ x, more x = true ↔ ∃ a ∈ fi.walkedFrom (relPath p), x < names a := fun x => by
    simp only [more, List.any_eq_true, decide_eq_true_eq]
  have hfuel : (fi.walkedFrom (relPath p)).length + t.size < fuel :=
    lt_of_le_of_lt (Nat.add_le_add_right hlen t.size) hfuel
  obtain ⟨s, hok, -, hreported⟩ := hwalk.spec hcb ht p listed _ _ fuel hopens hw hp hfuel
    (fun x _ => hmore x.1)
  refine ⟨_, s, hstart ▸ hok, ?_⟩
  have hlive : (fi.liveBelow p).Pairwise (fun a b => names a < names b) := by
    refine List.Pairwise.imp_of_mem (fun {a b} ha hb hlt => ?_) ((hfi.inOrder.filter _).filter _)
    have hmem : ∀ c ∈ fi.liveBelow p, (relPath (names c)).length ≤ MAX_PATH_LEN := fun c hc =>
      hnames c ▸ hshort c (List.mem_of_mem_filter (List.mem_of_mem_filter hc))
    exact hfi.names_lt (hnames a) (hnames b) (hmem a ha) (hmem b hb) hlt
  rw [reportsAll_iff hnames fun x hx => Listing.name_of_mem_flat (List.mem_of_mem_filter hx),
    hreported, List.map_nil, List.nil_append, met, hseen,
    isJoin_filter_iff (hseen ▸ (hw.inOrder.sublist (List.takeWhile_sublist _))) ht.flat hlive]
  have heq : ∀ a q, (fi.entry a).path = relPath q ↔ names a = q := fun a q => by
    rw [hnames, relPath_injective]
  have hnone : ∀ x, more x = false ↔
      ∀ ie ∈ fi.walkedFrom (relPath p), gotPathCmp (fi.entry ie).path (relPath x) ≠ .gt := by
    intro x
    rw [← Bool.not_eq_true, hmore]
    simp only [hnames, gotPathCmp_relPath, ne_eq, linCmp_eq_gt_iff, not_exists, not_and]
  simp only [hnone, ← heq]
  exact ⟨fun h => ⟨h.1, h.2⟩, fun h => ⟨h.entries_eq, h.skipped⟩⟩

/-- If nothing is to be skipped, only the entries count. -/
theorem seesAll_iff_of_no_skip :
    SeesAll (fun _ => false) fi p items ↔ fi.seen p = fi.liveBelow p := by
  have hfilter : (fi.seen p).filter (fun ie => ¬∃ x ∈ items, (false : Bool) ∧
      (fi.entry ie).path = relPath x.1) = fi.seen p := List.filter_eq_self.mpr fun _ _ => by simp
  exact ⟨fun h => hfilter.symm.trans h.entries_eq,
    fun h => ⟨hfilter.trans h, fun _ _ hskip => nomatch hskip⟩⟩

end Fileindex

end

end Got
