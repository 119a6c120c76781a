import Got.FetchPack.Selected

/-!
# A packet in a buffer that is used again

All packets of the server are read into one buffer, and a short packet leaves there what is behind
it of a longer one that came before. A line is taken apart with the length of its packet known, but
this length is looked at only before a token, and where zeros are skipped. White space and a token
are gone over as far as they go.

So the first two tokens are either in the packet or it is an error, because there has to be a third
one. But the third token, the capabilities, goes on up to a zero, and a line does not end with one.
What is parsed depends on the packet alone exactly if there is no third token, or a zero ends it
inside the packet. Neither is so if the packet is a line of a server.
-/

namespace Got

open ObjectFile Numeral

namespace FetchPack

variable {b c packet rest : Bytes} {len n left : ℕ}

/-- **A line of a server**: an id, a name, and what the server is capable of if it is the first
line. A line feed can be left out. -/
structure RefLine where
  idStr : Bytes
  refname : Bytes
  capabilities : Option Bytes
  lf : Bool
  idStr_hex : idStr.length = 40 ∧ ∀ c ∈ idStr, (digitValue 16 c).isSome
  refname_name : IsRefName refname
  capabilities_text : ∀ capa, capabilities = some capa → 0 ∉ capa ∧ 0x0a ∉ capa

/-- What is behind the name. -/
def RefLine.ending (l : RefLine) : Bytes :=
  (match l.capabilities with
    | some capa => 0 :: capa
    | none => []) ++ if l.lf then [0x0a] else []

/-- The bytes of a line of the advertisement: the id, a space, the name and the ending. -/
def RefLine.bytes (l : RefLine) : Bytes := l.idStr ++ 0x20 :: (l.refname ++ l.ending)

/-- **A packet is parsed by its own bytes**: what is behind it does not matter, and if it is a line
of a server the parts are those of the line. -/
structure ParsesPacket (packet : Bytes) : Prop where
  behind : ∀ b b', parseRefline ⟨packet, b⟩ = parseRefline ⟨packet, b'⟩
  line : ∀ l : RefLine, l.bytes = packet → ∀ b,
    parseRefline ⟨packet, b⟩ = .ok (l.idStr, l.refname, l.capabilities.getD [])

/-! ## The third field -/

/-- A field that ends inside the packet. -/
theorem lastToken_append (h : 0 ∈ rest) (b : Bytes) : lastToken (rest ++ b) = lastToken rest := by
  have hspace : rest.dropWhile isspace ≠ [] := fun hnil => by
    have hall := List.dropWhile_eq_nil_iff.mp hnil 0 h
    exact absurd hall (by decide)
  have hzero : 0 ∈ rest.dropWhile isspace := by
    rw [← @List.takeWhile_append_dropWhile _ isspace rest] at h
    refine (List.mem_append.mp h).resolve_left fun hmem => ?_
    exact absurd (List.mem_takeWhile_imp hmem) (by decide)
  have hdrop : (rest ++ b).dropWhile isspace = rest.dropWhile isspace ++ b := by
    rw [List.dropWhile_append, if_neg (by simpa using hspace)]
  have htake : (rest.dropWhile isspace ++ b).takeWhile (· ≠ 0)
      = (rest.dropWhile isspace).takeWhile (· ≠ 0) := by
    rw [List.takeWhile_append, if_neg]
    intro hlen
    have hself := (List.takeWhile_prefix _).eq_of_length hlen
    exact absurd (List.mem_takeWhile_imp (hself ▸ hzero)) (by decide)
  rw [lastToken, lastToken, hdrop, htake]

/-- What `strrchr` finds is no longer than what was searched. -/
theorem length_strrchr_le (s : Bytes) (c : UInt8) :
    (((strrchr s c).map Prod.fst).getD s).length ≤ s.length := by
  unfold strrchr
  have hle := (List.dropWhile_suffix (l := s.reverse) (· ≠ c)).length_le
  rw [List.length_reverse] at hle
  split
  · exact le_rfl
  · next heq =>
    rw [heq, List.length_cons] at hle
    rw [Option.map_some, Option.getD_some, List.length_reverse]
    omega

/-- **A field that does not end in the packet** is another one if a letter and a line feed are
behind it. -/
theorem lastToken_ne (h : 0 ∉ rest) : lastToken (rest ++ [0x78, 0x0a]) ≠ lastToken rest := by
  have hdrop : (rest ++ [0x78, 0x0a]).dropWhile isspace
    = rest.dropWhile isspace ++ [0x78, 0x0a] := by
    rw [List.dropWhile_append]
    split
    · next hnil =>
      rw [List.isEmpty_iff.mp hnil]
      rfl
    · rfl
  have hzero : 0 ∉ rest.dropWhile isspace := fun hmem => h (List.dropWhile_subset _ hmem)
  unfold lastToken
  rw [hdrop]
  generalize rest.dropWhile isspace = field at hzero ⊢
  have htake : ∀ l : Bytes, 0 ∉ l → l.takeWhile (· ≠ 0) = l := fun l hl =>
    List.takeWhile_eq_self_iff.mpr fun c hc => decide_eq_true fun heq => hl (heq ▸ hc)
  rw [htake field hzero, htake (field ++ [0x78, 0x0a]) (by simpa using hzero)]
  dsimp only
  intro heq
  have hlen := congrArg List.length heq
  have hle := length_strrchr_le field 0x0a
  rw [show field ++ [0x78, 0x0a] = (field ++ [0x78]) ++ [0x0a] by simp,
    strrchr_append List.not_mem_nil, Option.map_some, Option.getD_some, List.length_append,
      List.length_singleton] at hlen
  omega

/-! ## Lines of a server -/

/-- An id in hexadecimal is itself a valid name: it holds none of the characters that are refused.
-/
theorem isRefName_idStr (l : RefLine) : IsRefName l.idStr := by
  refine ⟨fun hnil => ?_, fun c hc => ?_⟩
  · have hlen := l.idStr_hex.1
    rw [hnil] at hlen
    cases hlen
  · have hspec := xdigit_spec c.toNat c.toNat_lt
    have hnat : c.toNat.toUInt8 = c := UInt8.ofNat_toNat
    rw [hnat] at hspec
    refine ⟨(hspec (l.idStr_hex.2 c hc)).1, ?_⟩
    rintro rfl
    exact absurd (l.idStr_hex.2 0 hc) (by decide)

/-- **The fields of a line.** -/
theorem fields_line (l : RefLine) : token l.bytes = l.idStr
    ∧ token (behindToken l.bytes) = l.refname
      ∧ thirdField l.bytes = l.ending.dropWhile (· = 0) := by
  obtain ⟨hid, hfirst⟩ := @token_append (0x20 :: (l.refname ++ l.ending)) [] l.idStr
    (fun c hc => absurd hc List.not_mem_nil) (isRefName_idStr l) fun c hc => by
      rw [← Option.some.inj hc]
      rfl
  rw [List.dropWhile_cons_of_neg (by decide)] at hfirst
  have hspace : ∀ c ∈ ([0x20] : Bytes), isspace c = true := fun c hc => by
    rw [List.mem_singleton.mp hc]
    rfl
  have hend : ∀ c, l.ending.head? = some c → inToken c = false := by
    intro c hc
    unfold RefLine.ending at hc
    cases hcapa : l.capabilities with
    | some capa =>
      rw [hcapa] at hc
      rw [← Option.some.inj hc]
      rfl
    | none =>
      rw [hcapa] at hc
      dsimp only at hc
      split at hc
      · rw [← Option.some.inj hc]
        rfl
      · cases hc
  obtain ⟨hname, hsecond⟩ := @token_append l.ending [0x20] l.refname hspace l.refname_name hend
  refine ⟨hid, ?_, ?_⟩
  · exact (congrArg token hfirst).trans hname
  · exact (congrArg behindToken hfirst).trans hsecond

/-- **A line does not end its third field**, if it has one. -/
theorem zero_not_mem_thirdField (l : RefLine) : 0 ∉ thirdField l.bytes := by
  have hlf : ∀ lf : Bool, (0 : UInt8) ∉ (if lf = true then [0x0a] else [] : Bytes) := by decide
  rw [(fields_line l).2.2]
  unfold RefLine.ending
  cases hcapa : l.capabilities with
  | some capa =>
    rw [List.cons_append, List.dropWhile_cons_of_pos rfl]
    intro hmem
    rcases List.mem_append.mp (List.dropWhile_subset _ hmem) with hmem | hmem
    · exact (l.capabilities_text capa hcapa).1 hmem
    · exact hlf l.lf hmem
  | none => exact fun hmem => hlf l.lf (List.dropWhile_subset _ hmem)

/-- **A packet is parsed by its own bytes** exactly if it is not a line of a server, and either it
ends before there is a third field or there is a zero in the third field or behind it. -/
theorem parsesPacket_iff (packet : Bytes) :
    ParsesPacket packet
      ↔ (∀ l : RefLine, l.bytes ≠ packet) ∧ (thirdField packet = [] ∨ 0 ∈ thirdField packet) := by
  constructor
  · intro h
    have hfield : thirdField packet = [] ∨ 0 ∈ thirdField packet := by
      by_contra hne
      obtain ⟨hne, hzero⟩ := not_or.mp hne
      have hbehind := h.behind [0x78, 0x0a] []
      rw [parseRefline_eq, parseRefline_eq, if_neg hne, if_neg hne, List.append_nil] at hbehind
      exact lastToken_ne hzero (Prod.mk.inj (Prod.mk.inj (Except.ok.inj hbehind)).2).2
    refine ⟨fun l hl => ?_, hfield⟩
    have hline := h.line l hl []
    rw [parseRefline_eq] at hline
    rcases hfield with hnil | hzero
    · rw [if_pos hnil] at hline
      cases hline
    · exact zero_not_mem_thirdField l (hl ▸ hzero)
  · rintro ⟨hline, hfield⟩
    refine ⟨fun b b' => ?_, fun l hl => absurd hl (hline l)⟩
    rw [parseRefline_eq, parseRefline_eq]
    rcases hfield with hnil | hzero
    · rw [if_pos hnil, if_pos hnil]
    · rw [lastToken_append hzero, lastToken_append hzero]

/-- A line of a branch, which is not the first one. -/
def branchLine : Bytes := text "0123456789012345678901234567890123456789 refs/heads/x\n"

/-- **A line behind a longer one**: what was there of the longer one is taken for capabilities. -/
theorem not_parsesPacket_branchLine : ¬ ∀ packet, ParsesPacket packet := by
  intro h
  have hbehind := (h branchLine).behind (text "longer\n") []
  rw [parseRefline_eq, parseRefline_eq] at hbehind
  exact absurd hbehind (by decide)

end FetchPack

end Got
