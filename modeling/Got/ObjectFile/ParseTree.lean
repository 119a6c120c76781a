import Got.CString
import Got.Pack.Packfile

/-!
# Reading the content of a tree

The entries of a tree come one after the other, and are put in the order of their paths
while they are read. The length of an entry is that of its mode, of its name and of the
digest behind them, so there is something less to read after each (`parseTreeEntry_pos`).

Nothing says what kind of object the content is from.
-/

namespace Got

namespace ObjectFile

/-- **`struct got_parsed_tree_entry`**, with its name. -/
structure ParsedTreeEntry where
  mode : UInt32
  name : Str
  id : Sha1
  deriving DecidableEq

/-- The loop over the digits of a mode. No character is both below 0 and above 7. -/
def parseMode : Bytes → UInt32 → Except GotErr UInt32
  | [], mode => .ok mode
  | c :: p, mode =>
    if charInt c < 0x30 ∧ charInt c > 0x37 then .error .badObjData
    else parseMode p (mode <<< 3 ||| UInt32.ofBitVec (BitVec.ofInt 32 (charInt c - 0x30)))

/-- **`parse_tree_entry`**: an entry, and its length. -/
def parseTreeEntry (buf : Bytes) : Except GotErr (ParsedTreeEntry × ℕ) :=
  let elen := (buf.takeWhile (· ≠ 0)).length + 1
  if elen > buf.length then .error .badObjData
  else
    match (buf.take elen).findIdx? (· = 0x20) with
    | none => .error .badObjData
    | some 0 => .error .badObjData
    | some space => do
      let mode ← parseMode (buf.take space) 0
      if buf.length - elen < SHA1_DIGEST_LENGTH then .error .badObjData
      else
        return (⟨mode, cString (buf.drop (space + 1)),
          oidOf ((buf.drop elen).take SHA1_DIGEST_LENGTH)⟩, elen + SHA1_DIGEST_LENGTH)

/-- The loop of `got_object_parse_tree`. -/
def parseTreeEntries : ℕ → Bytes → List ParsedTreeEntry → Except GotErr (List ParsedTreeEntry)
  | _, [], entries => .ok entries
  | 0, _ :: _, _ => .error .fuel
  | n + 1, c :: buf, entries => do
    let (pte, elen) ← parseTreeEntry (c :: buf)
    match gotPathlistInsert ParsedTreeEntry.name entries pte with
    | none => .error .treeDupEntry
    | some entries => parseTreeEntries n ((c :: buf).drop elen) entries

/-- **`got_object_parse_tree`** -/
def gotObjectParseTree (buf : Bytes) : Except GotErr (List ParsedTreeEntry) :=
  parseTreeEntries buf.length buf []

/-! ## How it fails -/

/-- A mode is refused as bad data and in no other way. -/
theorem parseMode_eq_error {p : Bytes} {mode : UInt32} {e : GotErr}
    (h : parseMode p mode = .error e) : e = .badObjData := by
  induction p generalizing mode with
  | nil => exact nomatch h
  | cons c p ih =>
    rw [parseMode] at h
    split at h
    · exact (Except.error.inj h).symm
    · exact ih h

/-- An entry is refused as bad data and in no other way. -/
theorem parseTreeEntry_eq_error {buf : Bytes} {e : GotErr} (h : parseTreeEntry buf = .error e) :
    e = .badObjData := by
  unfold parseTreeEntry at h
  dsimp only at h
  split at h
  · exact (Except.error.inj h).symm
  split at h
  · exact (Except.error.inj h).symm
  · exact (Except.error.inj h).symm
  rcases bind_eq_error_iff.mp h with h | ⟨mode, -, h⟩
  · exact parseMode_eq_error h
  split at h
  · exact (Except.error.inj h).symm
  · exact nomatch h

/-- **An entry has a length.** -/
theorem parseTreeEntry_pos {buf : Bytes} {pte : ParsedTreeEntry} {elen : ℕ}
    (h : parseTreeEntry buf = .ok (pte, elen)) : 0 < elen := by
  unfold parseTreeEntry at h
  dsimp only at h
  split at h
  · exact nomatch h
  split at h
  · exact nomatch h
  · exact nomatch h
  obtain ⟨mode, -, h⟩ := bind_eq_ok_iff.mp h
  split at h
  · exact nomatch h
  · obtain ⟨-, rfl⟩ := Prod.mk.inj (Except.ok.inj h)
    exact Nat.succ_pos _

/-- A tree is refused for bad data or for an entry listed twice. -/
theorem parseTreeEntries_eq_error {n : ℕ} {buf : Bytes} {entries : List ParsedTreeEntry}
    {e : GotErr} (hn : buf.length ≤ n) (h : parseTreeEntries n buf entries = .error e) :
    e ∈ [.badObjData, .treeDupEntry] := by
  induction n generalizing buf entries with
  | zero =>
    rw [List.eq_nil_of_length_eq_zero (Nat.le_zero.mp hn)] at h
    exact nomatch h
  | succ n ih =>
    cases buf with
    | nil => exact nomatch h
    | cons c buf =>
      rw [parseTreeEntries] at h
      rcases bind_eq_error_iff.mp h with h | ⟨⟨pte, elen⟩, hentry, h⟩
      · obtain rfl := parseTreeEntry_eq_error h
        decide
      · have hpos := parseTreeEntry_pos hentry
        dsimp only at h
        split at h
        · obtain rfl := Except.error.inj h
          decide
        · refine ih ?_ h
          rw [List.length_drop]
          omega

theorem gotObjectParseTree_eq_error {buf : Bytes} {e : GotErr}
    (h : gotObjectParseTree buf = .error e) : e ∈ [.badObjData, .treeDupEntry] :=
  parseTreeEntries_eq_error le_rfl h

end ObjectFile

end Got
