import Got.Endian
import Got.Lib.Runs
import Got.Lib.Slots
import Got.Pack.Packidx
import Got.Path

/-!
# The cache of open packs

A repository has slots for packs that are open. A pack is looked for from the first slot
to the first one that is empty, and a new one is put there. The last slot is never used:
where all others are, the pack in the last one of them is closed, all packs move up by one
slot, and the new one is put in the first.

What is opened last comes into a slot that was made empty before, and a failure empties
it once more. If this is the first slot then there is a hole in front of all the packs
which have moved: none of them is found any more, and the same pack can be cached a second
time later on. So the packs are as they should be in exactly those runs in which no call
fails that has closed a pack without an error to make room (`callRight_iff`). Failures
with room left, and those of closing a pack, do no harm.
-/

namespace Got

namespace PackCache

/-- `struct got_pack`, as far as it is used here. The slot is empty where the path
is `NULL`. -/
structure CachedPack where
  pathPackfile : Str
  filesize : ℕ
  /-- Whether the file is mapped, or read instead. -/
  mapped : Bool
  deriving DecidableEq

def GOT_PACKIDX_CACHE_SIZE : ℕ := 16
def GOT_PACK_CACHE_SIZE : ℕ := GOT_PACKIDX_CACHE_SIZE

def GOT_PACKFILE_SIGNATURE : UInt32 := 0x5041434b
def GOT_PACKFILE_VERSION : UInt32 := 2

/-- **What the system does** in the course of a call, if it gets so far. -/
structure Sys where
  /-- Stop the process that reads from the pack which is closed. -/
  stopPrivsepChild : Except GotErr Unit
  munmap : Except GotErr Unit
  close : Except GotErr Unit
  strdup : Except GotErr Unit
  openat : Except GotErr Unit
  /-- As many bytes as are read for the header. -/
  read : Except GotErr Bytes
  fstat : Except GotErr ℕ
  mmap : Except Errno Unit

/-- **A call.** -/
structure Call where
  pathPackfile : Str
  packidx : Option Packidx
  sys : Sys

/-- What a call does: what it returns, the slots, and the pack that it has closed. -/
structure Outcome where
  result : Except GotErr CachedPack
  packs : List (Option CachedPack)
  closed : Option Str

/-- `got_pack_close`. Whatever fails, the rest is done all the same, and the first error
is returned. -/
def gotPackClose (sys : Sys) (pack : CachedPack) : Except GotErr Unit := do
  sys.stopPrivsepChild
  (if pack.mapped then sys.munmap else .ok ())
  sys.close

/-- `read_packfile_hdr` -/
def readPackfileHdr (sys : Sys) (packidx : Packidx) : Except GotErr Unit := do
  let totobj ← tableAt packidx.fanoutTable 0xff
  let hdr ← sys.read
  if hdr.length ≠ 12 then .error .badPackfile
  else if be32toh (hdr.take 4) ≠ GOT_PACKFILE_SIGNATURE
      ∨ be32toh ((hdr.drop 4).take 4) ≠ GOT_PACKFILE_VERSION
      ∨ be32toh (hdr.drop 8) ≠ totobj then .error .badPackfile
  else .ok ()

/-- `open_packfile` -/
def openPackfile (sys : Sys) (packidx : Option Packidx) : Except GotErr Unit := do
  sys.openat
  match packidx with
  | some packidx => readPackfileHdr sys packidx
  | none => .ok ()

/-- What is put in the slot. Without memory for a map the file is read. -/
def openPack (c : Call) : Except GotErr CachedPack := do
  c.sys.strdup
  openPackfile c.sys c.packidx
  let filesize ← c.sys.fstat
  match c.sys.mmap with
  | .ok _ => .ok ⟨c.pathPackfile, filesize, true⟩
  | .error e =>
    if e ≠ .nomem then .error (.errno e) else .ok ⟨c.pathPackfile, filesize, false⟩

/-- Fill a slot, or empty it. -/
def fillSlot (c : Call) (packs : List (Option CachedPack)) (i : ℕ) (closed : Option Str) :
    Outcome :=
  match openPack c with
  | .ok pack => ⟨.ok pack, packs.set i (some pack), closed⟩
  | .error e => ⟨.error e, packs.set i none, closed⟩

/-- **Cache a pack.** -/
def gotRepoCachePack (packs : List (Option CachedPack)) (c : Call) : Outcome :=
  match Slots.find (·.pathPackfile = c.pathPackfile) packs with
  | some _ => ⟨.error .cacheDupEntry, packs, none⟩
  | none =>
    let i := (Slots.entries packs).length
    if i = packs.length - 1 then
      match packs.getD (i - 1) none with
      | none => ⟨.error .outOfMap, packs, none⟩
      | some last =>
        let packs := packs.set (i - 1) none
        match gotPackClose c.sys last with
        | .error e => ⟨.error e, packs, some last.pathPackfile⟩
        | .ok _ => fillSlot c (Slots.moveUp packs) 0 (some last.pathPackfile)
    else if i < packs.length then fillSlot c packs i none
    else ⟨.error .outOfMap, packs, none⟩

/-- **Find a cached pack.** -/
def gotRepoGetCachedPack (packs : List (Option CachedPack)) (pathPackfile : Str) :
    Option CachedPack :=
  Slots.find (·.pathPackfile = pathPackfile) packs

/-! ## Runs -/

/-- A repository with its packs, and the paths of those that were **cached successfully
and not closed since**. -/
structure Session where
  packs : List (Option CachedPack)
  held : List Str

/-- A call made in a session. -/
def step (s : Session) (c : Call) : Session :=
  let out := gotRepoCachePack s.packs c
  let held := s.held.filter (fun path => out.closed ≠ some path)
  ⟨out.packs, match out.result with
    | .ok _ => c.pathPackfile :: held
    | .error _ => held⟩

/-- A repository that was just opened. -/
def opened : Session := ⟨List.replicate GOT_PACK_CACHE_SIZE none, []⟩

/-- **How a call leaves the packs**: nothing is behind an empty slot, no two packs have the
same path, what was cached and not closed is found, and a call that fails makes no
difference to any other pack than the one it has closed. -/
structure CallRight (s : Session) (c : Call) : Prop where
  contiguous : Slots.Contiguous (step s c).packs
  distinct : (((step s c).packs.filterMap id).map CachedPack.pathPackfile).Nodup
  found : ∀ path ∈ (step s c).held, ∃ pack,
    gotRepoGetCachedPack (step s c).packs path = some pack ∧ pack.pathPackfile = path
  others : ∀ e, (gotRepoCachePack s.packs c).result = .error e →
    ∀ path, (gotRepoCachePack s.packs c).closed ≠ some path →
      gotRepoGetCachedPack (step s c).packs path = gotRepoGetCachedPack s.packs path

/-- The header of the file is that of a pack with as many objects as there are in the
index. -/
def HeaderMatches (hdr : Bytes) (packidx : Packidx) : Prop :=
  ∃ totobj, tableAt packidx.fanoutTable 0xff = .ok totobj ∧ hdr.length = 12
    ∧ be32toh (hdr.take 4) = GOT_PACKFILE_SIGNATURE
    ∧ be32toh ((hdr.drop 4).take 4) = GOT_PACKFILE_VERSION ∧ be32toh (hdr.drop 8) = totobj

/-- **The pack can be opened.** -/
structure Opens (c : Call) : Prop where
  strdup : c.sys.strdup = .ok ()
  openat : c.sys.openat = .ok ()
  header : ∀ packidx, c.packidx = some packidx
    → ∃ hdr, c.sys.read = .ok hdr ∧ HeaderMatches hdr packidx
  fstat : ∃ filesize, c.sys.fstat = .ok filesize
  mmap : c.sys.mmap = .ok () ∨ c.sys.mmap = .error .nomem

/-- Closing a pack meets no error. -/
def Closes (sys : Sys) (pack : CachedPack) : Prop :=
  sys.stopPrivsepChild = .ok () ∧ (pack.mapped = true → sys.munmap = .ok ()) ∧ sys.close = .ok ()

/-- **No pack was closed in vain**: with all slots but one in use, none of them by the pack
that is asked for, the pack can be opened unless the one in the way cannot be closed. -/
def RoomIsUsed (s : Session) (c : Call) : Prop :=
  ∀ last, (Slots.entries s.packs).length = GOT_PACK_CACHE_SIZE - 1 →
    (Slots.entries s.packs).getLast? = some last →
    (∀ pack ∈ Slots.entries s.packs, pack.pathPackfile ≠ c.pathPackfile) →
    Closes c.sys last → Opens c

/-! ## What a call does -/

theorem unit_bind_eq_ok_iff {β : Type} {x : Except GotErr Unit} {f : Unit → Except GotErr β}
    {b : β} : (x >>= f) = .ok b ↔ x = .ok () ∧ f () = .ok b := by
  rw [bind_eq_ok_iff]
  exact ⟨fun ⟨_, hx, hf⟩ => ⟨hx, hf⟩, fun ⟨hx, hf⟩ => ⟨(), hx, hf⟩⟩

theorem gotPackClose_eq_ok_iff {sys : Sys} {pack : CachedPack} :
    gotPackClose sys pack = .ok () ↔ Closes sys pack := by
  unfold gotPackClose Closes
  rw [unit_bind_eq_ok_iff, unit_bind_eq_ok_iff]
  cases pack.mapped <;> simp

/-- The header of a pack is read when it matches its index. -/
theorem readPackfileHdr_eq_ok_iff {sys : Sys} {packidx : Packidx} :
    readPackfileHdr sys packidx = .ok ()
      ↔ ∃ hdr, sys.read = .ok hdr ∧ HeaderMatches hdr packidx := by
  unfold readPackfileHdr HeaderMatches
  simp only [bind_eq_ok_iff]
  constructor
  · rintro ⟨totobj, htotobj, hdr, hread, h⟩
    refine ⟨hdr, hread, totobj, htotobj, ?_⟩
    grind
  · rintro ⟨hdr, hread, totobj, htotobj, hlen, hsig, hversion, hnobjects⟩
    refine ⟨totobj, htotobj, hdr, hread, ?_⟩
    grind

/-- A pack is opened if its file is there and matches its index. -/
theorem openPackfile_eq_ok_iff {c : Call} : openPackfile c.sys c.packidx = .ok ()
    ↔ c.sys.openat = .ok () ∧ ∀ packidx, c.packidx = some packidx →
      ∃ hdr, c.sys.read = .ok hdr ∧ HeaderMatches hdr packidx := by
  unfold openPackfile
  rw [unit_bind_eq_ok_iff]
  cases c.packidx with
  | none => simp
  | some packidx => simp [readPackfileHdr_eq_ok_iff]

/-- **What is opened**, from what the system does. -/
theorem openPack_eq_ok_iff {c : Call} {pack : CachedPack} : openPack c = .ok pack
    ↔ c.sys.strdup = .ok () ∧ openPackfile c.sys c.packidx = .ok ()
      ∧ pack.pathPackfile = c.pathPackfile ∧ c.sys.fstat = .ok pack.filesize
      ∧ c.sys.mmap = if pack.mapped then .ok () else .error .nomem := by
  obtain ⟨path, size, mapped⟩ := pack
  unfold openPack
  rw [unit_bind_eq_ok_iff, unit_bind_eq_ok_iff, bind_eq_ok_iff]
  cases c.sys.mmap with
  | ok u => cases mapped <;> grind
  | error e => cases mapped <;> grind

/-- A pack is opened exactly when nothing fails on the way. -/
theorem exists_openPack_iff {c : Call} : (∃ pack, openPack c = .ok pack) ↔ Opens c := by
  simp only [openPack_eq_ok_iff, openPackfile_eq_ok_iff]
  constructor
  · rintro ⟨pack, hstrdup, ⟨hopenat, hheader⟩, -, hfstat, hmmap⟩
    refine ⟨hstrdup, hopenat, hheader, ⟨_, hfstat⟩, ?_⟩
    cases hmapped : pack.mapped with
    | true => exact Or.inl (by rw [hmmap, hmapped]; rfl)
    | false => exact Or.inr (by rw [hmmap, hmapped]; rfl)
  · rintro ⟨hstrdup, hopenat, hheader, ⟨size, hfstat⟩, hmmap⟩
    rcases hmmap with hmmap | hmmap
    · exact ⟨⟨_, size, true⟩, hstrdup, ⟨hopenat, hheader⟩, rfl, hfstat, hmmap⟩
    · exact ⟨⟨_, size, false⟩, hstrdup, ⟨hopenat, hheader⟩, rfl, hfstat, hmmap⟩

section Calls

variable {as : List CachedPack} {c : Call}

theorem find_ofList_eq_none_iff {path : Str} :
    Slots.find (·.pathPackfile = path) (Slots.ofList GOT_PACK_CACHE_SIZE as) = none
      ↔ ∀ pack ∈ as, pack.pathPackfile ≠ path := by
  rw [Slots.find_eq_find?, Slots.entries_ofList, List.find?_eq_none]
  simp

/-- **The pack is cached already.** -/
theorem gotRepoCachePack_of_mem (hdup : ∃ pack ∈ as, pack.pathPackfile = c.pathPackfile) :
    gotRepoCachePack (Slots.ofList GOT_PACK_CACHE_SIZE as) c
      = ⟨.error .cacheDupEntry, Slots.ofList GOT_PACK_CACHE_SIZE as, none⟩ := by
  unfold gotRepoCachePack
  cases hfind : Slots.find (·.pathPackfile = c.pathPackfile)
    (Slots.ofList GOT_PACK_CACHE_SIZE as) with
  | none =>
    obtain ⟨pack, hpack, hpath⟩ := hdup
    exact absurd hpath (find_ofList_eq_none_iff.mp hfind pack hpack)
  | some pack => rfl

/-- **There is room.** -/
theorem gotRepoCachePack_of_lt (hnew : ∀ pack ∈ as, pack.pathPackfile ≠ c.pathPackfile)
    (hroom : as.length < GOT_PACK_CACHE_SIZE - 1) :
    gotRepoCachePack (Slots.ofList GOT_PACK_CACHE_SIZE as) c
      = ⟨openPack c, Slots.ofList GOT_PACK_CACHE_SIZE
          (as ++ (openPack c).toOption.toList), none⟩ := by
  have hlen : as.length < GOT_PACK_CACHE_SIZE := hroom.trans (by decide)
  unfold gotRepoCachePack
  rw [find_ofList_eq_none_iff.mpr hnew]
  dsimp only
  rw [Slots.entries_ofList, Slots.length_ofList hlen.le, if_neg hroom.ne, if_pos hlen, fillSlot]
  cases openPack c with
  | error e =>
    dsimp only
    rw [Slots.ofList_set_length_none]
    simp [Except.toOption]
  | ok pack =>
    dsimp only
    rw [Slots.ofList_set hlen]
    rfl

/-- **The last pack has to go.** -/
theorem gotRepoCachePack_of_eq {last : CachedPack} (hfull : as.length = GOT_PACK_CACHE_SIZE - 2)
    (hnew : ∀ pack ∈ as ++ [last], pack.pathPackfile ≠ c.pathPackfile) :
    gotRepoCachePack (Slots.ofList GOT_PACK_CACHE_SIZE (as ++ [last])) c
      = match gotPackClose c.sys last with
        | .error e => ⟨.error e, Slots.ofList GOT_PACK_CACHE_SIZE as, some last.pathPackfile⟩
        | .ok _ => ⟨openPack c, (openPack c).toOption :: Slots.ofList (GOT_PACK_CACHE_SIZE - 1) as,
          some last.pathPackfile⟩ := by
  have hlen : as.length + 1 = GOT_PACK_CACHE_SIZE - 1 := by
    rw [hfull]
    rfl
  have hlt : as.length < GOT_PACK_CACHE_SIZE := by
    rw [hfull]
    decide
  have hle : (as ++ [last]).length ≤ GOT_PACK_CACHE_SIZE := by
    rw [List.length_append]
    exact hlt
  have hlast : (Slots.ofList GOT_PACK_CACHE_SIZE (as ++ [last])).getD as.length none
      = some last := by
    rw [← Slots.ofList_set hlt, List.getD_eq_getElem?_getD, List.getElem?_set_self]
    · rfl
    · rw [Slots.length_ofList hlt.le]
      exact hlt
  unfold gotRepoCachePack
  rw [find_ofList_eq_none_iff.mpr hnew]
  dsimp only
  rw [Slots.entries_ofList, List.length_append, List.length_singleton, Nat.add_sub_cancel, hlast,
    Slots.length_ofList hle, if_pos hlen, Slots.ofList_set_none hlt]
  dsimp only
  cases gotPackClose c.sys last with
  | error e => rfl
  | ok u =>
    have hdrop : (Slots.ofList GOT_PACK_CACHE_SIZE as).dropLast
        = Slots.ofList (GOT_PACK_CACHE_SIZE - 1) as := by
      have htake := List.take_of_length_le (Nat.le_of_lt (Nat.lt_of_succ_le hlen.le))
      conv_rhs => rw [← htake]
      exact Slots.dropLast_ofList (hlt.le)
    have hne : Slots.ofList GOT_PACK_CACHE_SIZE as ≠ [] :=
      List.ne_nil_of_length_pos (by rw [Slots.length_ofList hlt.le]; decide)
    dsimp only
    rw [fillSlot]
    cases openPack c with
    | error e =>
      dsimp only
      rw [Slots.moveUp_set_zero _ hne, hdrop]
      rfl
    | ok pack =>
      dsimp only
      rw [Slots.moveUp_set_zero _ hne, hdrop]
      rfl

end Calls

/-! ## Sessions -/

/-- **A session is in order**: the packs are in the first slots, one slot at least is empty,
no two packs have the same path, and all of those that are held are there. -/
structure InOrder (s : Session) (as : List CachedPack) : Prop where
  packs : s.packs = Slots.ofList GOT_PACK_CACHE_SIZE as
  length : as.length ≤ GOT_PACK_CACHE_SIZE - 1
  distinct : (as.map CachedPack.pathPackfile).Nodup
  held : ∀ path ∈ s.held, path ∈ as.map CachedPack.pathPackfile

theorem inOrder_opened : InOrder opened [] :=
  ⟨rfl, Nat.zero_le _, List.nodup_nil, fun _ h => nomatch h⟩

theorem getCachedPack_ofList (as : List CachedPack) (path : Str) :
    gotRepoGetCachedPack (Slots.ofList GOT_PACK_CACHE_SIZE as) path
      = as.find? (·.pathPackfile = path) := by
  rw [gotRepoGetCachedPack, Slots.find_eq_find?, Slots.entries_ofList]

variable {s : Session} {c : Call} {as : List CachedPack}

/-- What is held is found. -/
theorem InOrder.found (h : InOrder s as) {path : Str} (hpath : path ∈ s.held) :
    ∃ pack, gotRepoGetCachedPack s.packs path = some pack ∧ pack.pathPackfile = path := by
  obtain ⟨pack, hpack, heq⟩ := List.mem_map.mp (h.held path hpath)
  rw [h.packs, getCachedPack_ofList]
  cases hfind : as.find? (·.pathPackfile = path) with
  | none => exact absurd (decide_eq_true heq) (List.find?_eq_none.mp hfind pack hpack)
  | some pack' =>
    have hpack' := List.find?_some hfind
    exact ⟨pack', rfl, of_decide_eq_true hpack'⟩

/-- A session that is in order after a call, which only what was closed can tell. -/
theorem callRight_of_inOrder (h : InOrder (step s c) as)
    (hothers : ∀ e, (gotRepoCachePack s.packs c).result = .error e →
      ∀ path, (gotRepoCachePack s.packs c).closed ≠ some path →
        gotRepoGetCachedPack (step s c).packs path = gotRepoGetCachedPack s.packs path) :
    CallRight s c where
  contiguous := h.packs ▸ Slots.contiguous_ofList
  distinct := by
    rw [h.packs, Slots.filterMap_ofList]
    exact h.distinct
  found path hpath := h.found hpath
  others := hothers

/-- **The session after a call**, and that what is not concerned by a failure stays. -/
def StaysInOrder (s : Session) (c : Call) : Prop :=
  CallRight s c ∧ ∃ bs, InOrder (step s c) bs

/-- An outcome that leaves the packs as they are. -/
theorem InOrder.of_unchanged (h : InOrder s as) {e : GotErr}
    (hout : gotRepoCachePack s.packs c = ⟨.error e, s.packs, none⟩) : StaysInOrder s c := by
  have hstep : step s c = s := by
    rw [step, hout]
    simp
  have hs : InOrder (step s c) as := by
    rw [hstep]
    exact h
  refine ⟨callRight_of_inOrder hs fun _ _ path _ => by rw [hstep], as, hs⟩

/-- A pack behind the others. -/
theorem InOrder.of_added (h : InOrder s as) {pack : CachedPack}
    (hroom : as.length < GOT_PACK_CACHE_SIZE - 1) (hpath : pack.pathPackfile = c.pathPackfile)
    (hnew : ∀ pack ∈ as, pack.pathPackfile ≠ c.pathPackfile)
    (hout : gotRepoCachePack s.packs c
      = ⟨.ok pack, Slots.ofList GOT_PACK_CACHE_SIZE (as ++ [pack]), none⟩) : StaysInOrder s c := by
  have hs : InOrder (step s c) (as ++ [pack]) := by
    rw [step, hout]
    refine ⟨rfl, by rw [List.length_append]; exact hroom, ?_, fun path hmem => ?_⟩
    · rw [List.map_append, List.nodup_append]
      refine ⟨h.distinct, List.nodup_singleton _, fun p hp q hq heq => ?_⟩
      obtain ⟨pack', hpack', rfl⟩ := List.mem_map.mp hp
      obtain rfl := List.mem_singleton.mp hq
      exact hnew pack' hpack' (heq.trans hpath)
    · rw [List.map_append, List.mem_append]
      rcases List.mem_cons.mp hmem with rfl | hmem
      · exact Or.inr (List.mem_singleton.mpr hpath.symm)
      · exact Or.inl (h.held path (List.mem_of_mem_filter hmem))
  refine ⟨callRight_of_inOrder hs fun e he => ?_, _, hs⟩
  rw [hout] at he
  cases he

/-- What was held is still there, if it was not the last pack. -/
theorem InOrder.mem_of_held_of_ne {last : CachedPack} (h : InOrder s (as ++ [last])) {path : Str}
    (hmem : path ∈ s.held.filter (fun path => some last.pathPackfile ≠ some path)) :
    path ∈ as.map CachedPack.pathPackfile := by
  obtain ⟨hmem, hne⟩ := List.mem_filter.mp hmem
  have hheld := h.held path hmem
  rw [List.map_append, List.mem_append] at hheld
  refine hheld.resolve_right fun hlast => of_decide_eq_true hne ?_
  rw [List.mem_singleton.mp hlast]

/-- The last pack is gone, and nothing has come for it. -/
theorem InOrder.of_closed {last : CachedPack} (h : InOrder s (as ++ [last])) {e : GotErr}
    (hout : gotRepoCachePack s.packs c
      = ⟨.error e, Slots.ofList GOT_PACK_CACHE_SIZE as, some last.pathPackfile⟩) :
    StaysInOrder s c := by
  have hdistinct := h.distinct
  rw [List.map_append] at hdistinct
  have hs : InOrder (step s c) as := by
    rw [step, hout]
    refine ⟨rfl, Nat.le_of_succ_le (by simpa using h.length), hdistinct.of_append_left,
      fun path hmem => ?_⟩
    exact h.mem_of_held_of_ne hmem
  refine ⟨callRight_of_inOrder hs fun e' _ path hne => ?_, _, hs⟩
  rw [hout] at hne
  have hne : last.pathPackfile ≠ path := fun heq => hne (congrArg some heq)
  rw [hs.packs, h.packs, getCachedPack_ofList, getCachedPack_ofList, List.find?_append]
  have hlast : [last].find? (·.pathPackfile = path) = none := by
    rw [List.find?_cons_of_neg (by simpa using hne)]
    rfl
  rw [hlast, Option.or_none]

/-- **The last pack has made room** for another one. -/
theorem InOrder.of_moved {last pack : CachedPack} (h : InOrder s (as ++ [last]))
    (hpath : pack.pathPackfile = c.pathPackfile)
    (hnew : ∀ pack ∈ as ++ [last], pack.pathPackfile ≠ c.pathPackfile)
    (hout : gotRepoCachePack s.packs c
      = ⟨.ok pack, some pack :: Slots.ofList (GOT_PACK_CACHE_SIZE - 1) as,
        some last.pathPackfile⟩) : StaysInOrder s c := by
  have hdistinct := h.distinct
  rw [List.map_append] at hdistinct
  have hs : InOrder (step s c) (pack :: as) := by
    rw [step, hout]
    refine ⟨?_, by simpa using h.length, ?_, fun path hmem => ?_⟩
    · exact Slots.cons_ofList pack as
    · rw [List.map_cons, List.nodup_cons]
      refine ⟨fun hmem => ?_, hdistinct.of_append_left⟩
      obtain ⟨pack', hpack', heq⟩ := List.mem_map.mp hmem
      exact hnew pack' (List.mem_append_left _ hpack') (heq.trans hpath)
    · rw [List.map_cons]
      rcases List.mem_cons.mp hmem with rfl | hmem
      · exact List.mem_cons.mpr (Or.inl hpath.symm)
      · exact List.mem_cons_of_mem _ (h.mem_of_held_of_ne hmem)
  refine ⟨callRight_of_inOrder hs fun e he => ?_, _, hs⟩
  rw [hout] at he
  cases he

/-- **A call keeps the session in order** if it does not close a pack in vain. -/
theorem InOrder.staysInOrder (h : InOrder s as) (hroom : RoomIsUsed s c) : StaysInOrder s c := by
  by_cases hdup : ∃ pack ∈ as, pack.pathPackfile = c.pathPackfile
  · refine h.of_unchanged (e := .cacheDupEntry) ?_
    rw [h.packs, gotRepoCachePack_of_mem hdup]
  have hnew : ∀ pack ∈ as, pack.pathPackfile ≠ c.pathPackfile :=
    fun pack hpack heq => hdup ⟨pack, hpack, heq⟩
  by_cases hlt : as.length < GOT_PACK_CACHE_SIZE - 1
  · have hout := gotRepoCachePack_of_lt hnew hlt
    rw [← h.packs] at hout
    cases hopen : openPack c with
    | error e =>
      rw [hopen] at hout
      refine h.of_unchanged (e := e) (hout.trans ?_)
      rw [h.packs]
      exact congrArg (fun l => Outcome.mk _ (Slots.ofList _ l) _) (List.append_nil as)
    | ok pack =>
      rw [hopen] at hout
      exact h.of_added hlt (openPack_eq_ok_iff.mp hopen).2.2.1 hnew hout
  · -- all slots but one are in use
    have hfull : as.length = GOT_PACK_CACHE_SIZE - 1 := le_antisymm h.length (not_lt.mp hlt)
    have hne : as ≠ [] := List.ne_nil_of_length_pos (by rw [hfull]; decide)
    obtain ⟨bs, last, rfl⟩ : ∃ bs last, as = bs ++ [last] :=
      ⟨_, _, (List.dropLast_append_getLast hne).symm⟩
    have hlen : bs.length = GOT_PACK_CACHE_SIZE - 2 := by
      rw [List.length_append] at hfull
      exact Nat.succ.inj hfull
    have hout := gotRepoCachePack_of_eq hlen hnew
    rw [← h.packs] at hout
    cases hclose : gotPackClose c.sys last with
    | error e =>
      rw [hclose] at hout
      exact h.of_closed hout
    | ok u =>
      have hentries : Slots.entries s.packs = bs ++ [last] := by rw [h.packs, Slots.entries_ofList]
      rw [RoomIsUsed, hentries] at hroom
      obtain ⟨pack, hopen⟩ := exists_openPack_iff.mpr
        (hroom last hfull List.getLast?_concat hnew (gotPackClose_eq_ok_iff.mp hclose))
      rw [hclose, hopen] at hout
      exact h.of_moved (openPack_eq_ok_iff.mp hopen).2.2.1 hnew hout

/-- **A pack that was closed in vain** leaves a hole. -/
theorem InOrder.roomIsUsed (h : InOrder s as) (hright : CallRight s c) : RoomIsUsed s c := by
  have hentries : Slots.entries s.packs = as := by rw [h.packs, Slots.entries_ofList]
  rw [RoomIsUsed, hentries]
  intro last hfull hlast hnew hclose
  obtain ⟨bs, rfl⟩ := List.getLast?_eq_some_iff.mp hlast
  have hlen : bs.length = GOT_PACK_CACHE_SIZE - 2 := by
    rw [List.length_append] at hfull
    exact Nat.succ.inj hfull
  have hout := gotRepoCachePack_of_eq hlen hnew
  rw [← h.packs, gotPackClose_eq_ok_iff.mpr hclose] at hout
  rw [← exists_openPack_iff]
  cases hopen : openPack c with
  | ok pack => exact ⟨pack, rfl⟩
  | error e =>
    -- the slot of the pack that is missing is the first one
    have hcontiguous := hright.contiguous
    rw [step, hout, hopen] at hcontiguous
    obtain ⟨b, hb⟩ := List.exists_mem_of_length_pos (by rw [hlen]; decide)
    exact absurd hcontiguous (Slots.not_contiguous_cons_none hb)

/-- **The packs are as they should be** after every call of a run if and only if no call of
the run fails after it has closed a pack without an error to make room. -/
theorem callRight_iff (calls : List Call) :
    Runs.Meets step CallRight opened calls ↔ Runs.Meets step RoomIsUsed opened calls := by
  refine @Runs.Meets.iff_of_step _ _ step CallRight RoomIsUsed (fun s => ∃ as, InOrder s as)
    opened calls ⟨[], inOrder_opened⟩ ?_ ?_
  · rintro s c ⟨as, h⟩
    exact ⟨h.roomIsUsed, fun hroom => (h.staysInOrder hroom).1⟩
  · rintro s c ⟨as, h⟩ hroom
    exact (h.staysInOrder hroom).2

/-- A pack that can be opened, of which the path has some length. -/
def smallPack (n : ℕ) : Call where
  pathPackfile := List.replicate n 'p'
  packidx := none
  sys := ⟨.ok (), .ok (), .ok (), .ok (), .ok (), .ok [], .ok 32, .ok ()⟩

/-- As many packs as there is room for, and one whose file is not there. -/
def missingPack : Call :=
  { smallPack 15 with sys := { (smallPack 15).sys with openat := .error (.errno .noent) } }

/-- The pack that cannot be opened leaves a hole in the cache, behind which nothing is found. -/
theorem missingPack_not_callRight :
    ¬Runs.Meets step CallRight opened ((List.range 15).map smallPack ++ [missingPack]) := by
  intro h
  obtain ⟨pack, hpack, -⟩ := h.last.found ['p'] (by decide)
  have hnone : gotRepoGetCachedPack
      (step (Runs.run step opened ((List.range 15).map smallPack)) missingPack).packs ['p']
      = none := by
    decide
  rw [hnone] at hpack
  cases hpack

end PackCache

end Got
