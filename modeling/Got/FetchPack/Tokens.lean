import Got.FetchPack.Refs

/-!
# Lines are taken apart

A line is taken apart with the length of its packet known, but this length is looked at only before
a token, and where zeros are skipped. A round of the loop leaves the same bytes of the packet as it
would without anything behind them, or its token is the last one (`tokenizeRefline_round`). So the
first two fields are those of the packet, and it is the third one that goes on behind it
(`parseRefline_eq`).
-/

namespace Got

open ObjectFile

namespace FetchPack

variable {b rest : Bytes} {len n left : ℕ}

/-! ## Fields -/

/-- A name which can be in a line. -/
def IsRefName (name : Bytes) : Prop := name ≠ [] ∧ ∀ c ∈ name, isspace c = false ∧ c ≠ 0

/-- A byte of one of the first two tokens. -/
def inToken (c : UInt8) : Bool := c ≠ 0 ∧ isspace c = false

/-- The token at the start of some bytes, behind white space. -/
def token (bytes : Bytes) : Bytes := (bytes.dropWhile isspace).takeWhile inToken

/-- What is left behind a token and the zeros that follow it. -/
def behindToken (bytes : Bytes) : Bytes :=
  ((bytes.dropWhile isspace).dropWhile inToken).dropWhile (· = 0)

/-- The last token, up to a zero, and without its last line feed. -/
def lastToken (bytes : Bytes) : Bytes :=
  let token := (bytes.dropWhile isspace).takeWhile (· ≠ 0)
  ((strrchr token 0x0a).map Prod.fst).getD token

/-- **The third field** of a packet, with what follows it there. -/
def thirdField (packet : Bytes) : Bytes := behindToken (behindToken packet)

theorem tokenizeRefline_of_le (h : len ≤ n) (left : ℕ) (line : Bytes) :
    tokenizeRefline len left line n = [] := by
  cases left with
  | zero => rfl
  | succ left => rw [tokenizeRefline, if_neg (Nat.not_lt.mpr h)]

/-- What is left behind the bytes that are taken. -/
theorem drop_length_takeWhile (p : UInt8 → Bool) (bytes : Bytes) :
    bytes.drop (bytes.takeWhile p).length = bytes.dropWhile p :=
  (congrArg (List.drop _) List.takeWhile_append_dropWhile.symm).trans List.drop_left

/-- **Bytes are taken** from a part and what is behind it: they end inside the part, or take all
of it. -/
theorem takeWhile_in (p : UInt8 → Bool) (rest b : Bytes) :
    (rest.dropWhile p ≠ [] ∧ (rest ++ b).takeWhile p = rest.takeWhile p
        ∧ (rest ++ b).drop (rest.takeWhile p).length = rest.dropWhile p ++ b)
      ∨ rest.dropWhile p = [] ∧ rest.length ≤ ((rest ++ b).takeWhile p).length := by
  have hsplit := @List.takeWhile_append_dropWhile _ p rest
  by_cases hdrop : rest.dropWhile p = []
  · rw [hdrop, List.append_nil] at hsplit
    rw [List.takeWhile_append, if_pos (congrArg _ hsplit), List.length_append]
    exact Or.inr ⟨hdrop, Nat.le_add_right _ _⟩
  · have hlen : (rest.takeWhile p).length ≠ rest.length := by
      have hpos := List.length_pos_iff.mpr hdrop
      have := congrArg List.length hsplit
      rw [List.length_append] at this
      omega
    rw [List.takeWhile_append, if_neg hlen,
      List.drop_append_of_le_length (List.takeWhile_prefix p).length_le, drop_length_takeWhile]
    exact Or.inl ⟨hdrop, rfl, rfl⟩

/-- **One round** of the loop, with `rest` of the packet left: the next token is inside the packet
and does not end it, or it is the last that is read. -/
theorem tokenizeRefline_round (hlen : n + rest.length = len) (hrest : rest ≠ []) (left : ℕ) :
    (behindToken rest ≠ [] ∧ tokenizeRefline len (left + 2) (rest ++ b) n
        = token rest :: tokenizeRefline len (left + 1) (behindToken rest ++ b)
          (len - (behindToken rest).length))
      ∨ behindToken rest = [] ∧ ∃ t, tokenizeRefline len (left + 2) (rest ++ b) n = [t] := by
  have hpos := List.length_pos_iff.mpr hrest
  have htoken : (fun c => decide (c ≠ 0 ∧ (isspace c = false ∨ left + 1 = 0))) = inToken := by
    funext c
    refine decide_eq_decide.mpr (and_congr_right fun _ => ?_)
    exact or_iff_left (Nat.succ_ne_zero left)
  have hsum : ∀ p, (rest.takeWhile p).length + (rest.dropWhile p).length = rest.length :=
    fun p => by
    rw [← List.length_append, List.takeWhile_append_dropWhile]
  rw [tokenizeRefline, if_pos (by omega), htoken]
  dsimp only
  unfold behindToken token
  rcases takeWhile_in isspace rest b with ⟨-, htake, hdrop⟩ | ⟨hdrop, htake⟩
  swap
  · rw [hdrop]
    exact Or.inr ⟨rfl, _, by rw [tokenizeRefline_of_le]; omega⟩
  have hspaces := hsum isspace
  rw [htake, hdrop]
  generalize rest.dropWhile isspace = rest₁ at hspaces ⊢
  generalize rest.takeWhile isspace = spaces at hspaces ⊢
  have hsum₁ : ∀ p, (rest₁.takeWhile p).length + (rest₁.dropWhile p).length = rest₁.length :=
    fun p => by rw [← List.length_append, List.takeWhile_append_dropWhile]
  rcases takeWhile_in inToken rest₁ b with ⟨-, htake₁, hdrop₁⟩ | ⟨hdrop₁, htake₁⟩
  swap
  · rw [hdrop₁]
    exact Or.inr ⟨rfl, _, by rw [tokenizeRefline_of_le]; omega⟩
  have htok := hsum₁ inToken
  rw [htake₁, hdrop₁]
  generalize rest₁.dropWhile inToken = rest₂ at htok ⊢
  generalize rest₁.takeWhile inToken = tok at htok ⊢
  -- zeros are skipped up to the end of the packet at most
  have hleft : len - (n + spaces.length + tok.length) = rest₂.length := by omega
  have hsum₂ : (rest₂.takeWhile (· = 0)).length + (rest₂.dropWhile (· = 0)).length
    = rest₂.length := by
    rw [← List.length_append, List.takeWhile_append_dropWhile]
  rw [hleft]
  rcases takeWhile_in (· = 0) rest₂ b with ⟨hne, htake₂, hdrop₂⟩ | ⟨hdrop₂, htake₂⟩
  · rw [htake₂, Nat.min_eq_left (by omega), hdrop₂]
    refine Or.inl ⟨hne, ?_⟩
    congr 2
    omega
  · rw [Nat.min_eq_right htake₂]
    exact Or.inr ⟨hdrop₂, _, by rw [tokenizeRefline_of_le]; omega⟩

/-! ## What is parsed -/

theorem tokenizeRefline_zero (line : Bytes) : tokenizeRefline len 0 line n = [] := rfl

/-- **A packet is parsed** if it has three fields, and the third one goes on behind it. -/
theorem parseRefline_eq (packet b : Bytes) :
    parseRefline ⟨packet, b⟩ = if thirdField packet = [] then .error .notRef
      else .ok (token packet, token (behindToken packet), lastToken (thirdField packet ++ b)) := by
  unfold parseRefline
  dsimp only
  unfold thirdField
  by_cases hpacket : packet = []
  · subst hpacket
    rw [List.length_nil, tokenizeRefline_of_le (Nat.zero_le _)]
    rfl
  rcases @tokenizeRefline_round b packet packet.length 0 (Nat.zero_add _) hpacket 1 with
    ⟨hne, hround⟩ | ⟨hnil, t, hround⟩
  swap
  · rw [hround, hnil]
    rfl
  have hle : (behindToken packet).length ≤ packet.length :=
    (((List.dropWhile_suffix _).trans (List.dropWhile_suffix _)).trans
      (List.dropWhile_suffix _)).length_le
  rw [hround]
  rcases @tokenizeRefline_round b (behindToken packet) packet.length
    (packet.length - (behindToken packet).length) (Nat.sub_add_cancel hle) hne 0 with
    ⟨hne₂, hround₂⟩ | ⟨hnil₂, t, hround₂⟩
  swap
  · rw [hround₂, hnil₂]
    rfl
  have hpos := List.length_pos_iff.mpr hne₂
  have hle₂ : (behindToken (behindToken packet)).length ≤ (behindToken packet).length :=
    (((List.dropWhile_suffix _).trans (List.dropWhile_suffix _)).trans
      (List.dropWhile_suffix _)).length_le
  have htoken : (fun c : UInt8 => decide (c ≠ 0 ∧ (isspace c = false ∨ (0 : ℕ) = 0)))
      = fun c => decide (c ≠ 0) := by
    funext c
    exact decide_eq_decide.mpr (and_iff_left (Or.inr rfl))
  rw [hround₂, if_neg hne₂, tokenizeRefline, if_pos (by omega), htoken]
  dsimp only
  rw [tokenizeRefline_zero, drop_length_takeWhile, lastToken]
  dsimp only
  generalize ((behindToken (behindToken packet) ++ b).dropWhile isspace).takeWhile
    (fun c => decide (c ≠ 0)) = field
  cases strrchr field 0x0a <;> rfl

/-- A token, with white space in front of it, and what ends it. -/
theorem token_append {spaces tok : Bytes} (hspaces : ∀ c ∈ spaces, isspace c = true)
    (htok : IsRefName tok) (hend : ∀ c, rest.head? = some c → inToken c = false) :
    token (spaces ++ (tok ++ rest)) = tok
      ∧ behindToken (spaces ++ (tok ++ rest)) = rest.dropWhile (· = 0) := by
  have hin : ∀ c ∈ tok, inToken c = true := fun c hc =>
    decide_eq_true ⟨(htok.2 c hc).2, (htok.2 c hc).1⟩
  have hskip : (tok ++ rest).dropWhile isspace = tok ++ rest := by
    obtain ⟨t, ts, rfl⟩ := List.exists_cons_of_ne_nil htok.1
    rw [List.cons_append, List.dropWhile_cons_of_neg]
    rw [(htok.2 t List.mem_cons_self).1]
    exact Bool.false_ne_true
  have hstop : rest.takeWhile inToken = [] ∧ rest.dropWhile inToken = rest := by
    cases rest with
    | nil => exact ⟨rfl, rfl⟩
    | cons c rest =>
      have hc : ¬inToken c = true := by
        rw [hend c rfl]
        exact Bool.false_ne_true
      exact ⟨List.takeWhile_cons_of_neg hc, List.dropWhile_cons_of_neg hc⟩
  rw [token, behindToken, List.dropWhile_append_of_pos hspaces, hskip,
    List.dropWhile_append_of_pos hin, List.takeWhile_append_of_pos hin, hstop.1, hstop.2,
    List.append_nil]
  exact ⟨rfl, rfl⟩

/-- **The fields of a line**: two tokens, with a blank between them, and what is behind the zeros
that follow them. -/
theorem fields_append {idStr refname ending : Bytes} (hid : IsRefName idStr)
    (hname : IsRefName refname) (hend : ∀ c, ending.head? = some c → inToken c = false) :
    token (idStr ++ 0x20 :: (refname ++ ending)) = idStr
      ∧ token (behindToken (idStr ++ 0x20 :: (refname ++ ending))) = refname
      ∧ thirdField (idStr ++ 0x20 :: (refname ++ ending)) = ending.dropWhile (· = 0) := by
  obtain ⟨hfirst, hbehind⟩ := @token_append (0x20 :: (refname ++ ending)) [] idStr
    (fun c hc => absurd hc List.not_mem_nil) hid fun c hc => by
      obtain rfl := Option.some.inj hc
      rfl
  rw [List.nil_append, List.dropWhile_cons_of_neg (by decide)] at hbehind
  have hspace : ∀ c ∈ ([0x20] : Bytes), isspace c = true := fun c hc =>
    List.mem_singleton.mp hc ▸ rfl
  obtain ⟨hsecond, hthird⟩ := @token_append ending [0x20] refname hspace hname hend
  refine ⟨hfirst, ?_, ?_⟩
  · exact (congrArg token hbehind).trans hsecond
  · exact (congrArg behindToken hbehind).trans hthird

end FetchPack

end Got
