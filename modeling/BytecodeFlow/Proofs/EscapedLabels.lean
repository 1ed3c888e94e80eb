import BytecodeFlow.Dot
import Mathlib.Tactic

/-!
# Escaped labels

The text of a label is made by six replacements that run over the whole text one after the other.
Each of them works character by character, and so does the chain (`foldl_replaceAll_flatMap`), so
that only what it makes of a single character has to be looked at. The backslash is replaced first,
and no replacement puts in a character that a later one replaces: the chain makes of each character
what a single pass makes of it (`foldl_replaceAll_singleton`).

A reader of the drawing takes a backslash together with the character behind it. It meets the
characters of a label one by one, whatever stands behind the label (`scan_append`), which gives the
text back up to its carriage returns.
-/

namespace BytecodeFlow.Dot

/-! ## The single pass -/

/-- What stands for a character in a label. -/
def written : Char → List Char
  | '\\' => ['\\', '\\']
  | '"' => ['\\', '"']
  | '\n' => ['\\', 'n']
  | '\r' => []
  | '<' => ['\\', '<']
  | '>' => ['\\', '>']
  | c => [c]

theorem replaceAll_flatMap (found : Char) (replacement text : List Char) (f : Char → List Char) :
    replaceAll found replacement (text.flatMap f) =
      text.flatMap fun c => replaceAll found replacement (f c) :=
  List.flatMap_assoc

/-- A chain of replacements works character by character. -/
theorem foldl_replaceAll_flatMap (table : List (Char × List Char)) (text : List Char)
    (f : Char → List Char) :
    table.foldl (fun text entry => replaceAll entry.1 entry.2 text) (text.flatMap f) =
      text.flatMap fun c =>
        table.foldl (fun text entry => replaceAll entry.1 entry.2 text) (f c) := by
  induction table generalizing f with
  | nil => rfl
  | cons entry table ih => rw [List.foldl_cons, replaceAll_flatMap, ih]; rfl

/-- What the chain makes of a single character. -/
theorem foldl_replaceAll_singleton (c : Char) :
    replacements.foldl (fun text entry => replaceAll entry.1 entry.2 text) [c] = written c := by
  unfold written
  split
  case h_7 => simp_all [replacements, replaceAll]
  all_goals decide

theorem toList_escape (text : String) : (escape text).toList = text.toList.flatMap written := by
  have hChain := foldl_replaceAll_flatMap replacements text.toList fun c => [c]
  simp only [foldl_replaceAll_singleton, List.flatMap_singleton'] at hChain
  rw [escape, String.toList_ofList]
  exact hChain

/-! ## Reading a label -/

/-- What a reader takes in one go: a character that stands for itself, or a backslash with the
character behind it. -/
inductive Token where
  | plain (c : Char)
  | pair (c : Char)
deriving DecidableEq, Repr

/-- The character that a token stands for. -/
def Token.meaning : Token → Char
  | .pair 'n' => '\n'
  | .plain c | .pair c => c

/-- The tokens of a text from left to right, or nothing if its last backslash has no character
behind it. -/
def scan : List Char → Option (List Token)
  | [] => some []
  | ['\\'] => none
  | '\\' :: c :: text => (scan text).map (.pair c :: ·)
  | c :: text => (scan text).map (.plain c :: ·)

/-- The tokens that stand for a character in a label. -/
def tokens : Char → List Token
  | '\n' => [.pair 'n']
  | '\r' => []
  | c => if c ∈ ['\\', '"', '<', '>'] then [.pair c] else [.plain c]

theorem scan_pair (c : Char) (text : List Char) :
    scan ('\\' :: c :: text) = (scan text).map (.pair c :: ·) :=
  rfl

theorem scan_plain {c : Char} (h : c ≠ '\\') (text : List Char) :
    scan (c :: text) = (scan text).map (.plain c :: ·) := by
  rw [scan]
  · exact fun hc => absurd hc h
  · exact fun _ _ hc => absurd hc h

/-- A reader meets what stands for a character, and goes on behind it. -/
theorem scan_written (c : Char) (rest : List Char) :
    scan (written c ++ rest) = (scan rest).map (tokens c ++ ·) := by
  unfold written
  split
  case h_4 => simp [tokens]
  case h_7 hBackslash _ _ _ _ _ =>
    have hTokens : tokens c = [.plain c] := by simp_all [tokens]
    rw [hTokens]
    exact scan_plain hBackslash rest
  all_goals exact scan_pair _ _

/-- A reader meets the characters of a label one by one, whatever stands behind the label. -/
theorem scan_append (text rest : List Char) :
    scan (text.flatMap written ++ rest) = (scan rest).map (text.flatMap tokens ++ ·) := by
  induction text with
  | nil => simp
  | cons c text ih =>
    rw [List.flatMap_cons, List.append_assoc, scan_written, ih, Option.map_map]
    congr 1
    funext rest
    simp

theorem meaning_pair {c : Char} (h : c ∈ ['\\', '"', '<', '>']) : (Token.pair c).meaning = c := by
  simp only [List.mem_cons, List.not_mem_nil, or_false] at h
  rcases h with rfl | rfl | rfl | rfl <;> rfl

/-- The tokens of a character stand for it, but a carriage return has none. -/
theorem meaning_tokens {c : Char} (h : c ≠ '\r') : (tokens c).map Token.meaning = [c] := by
  unfold tokens
  split
  · rfl
  · exact absurd rfl h
  · split
    · rename_i hPair
      rw [List.map_singleton, meaning_pair hPair]
    · rfl

theorem meaning_flatMap_tokens (text : List Char) :
    (text.flatMap tokens).map Token.meaning = text.filter (· ≠ '\r') := by
  induction text with
  | nil => rfl
  | cons c text ih =>
    rw [List.flatMap_cons, List.map_append, ih]
    by_cases hReturn : c = '\r'
    · rw [hReturn, List.filter_cons_of_neg (by decide)]
      rfl
    · rw [meaning_tokens hReturn, List.filter_cons_of_pos (by simpa using hReturn)]
      rfl

theorem plain_quote_not_mem_tokens (c : Char) : Token.plain '"' ∉ tokens c := by
  unfold tokens
  split
  · decide
  · decide
  · split
    · simp
    · rename_i hPlain
      rw [List.mem_singleton, Token.plain.injEq]
      rintro rfl
      exact hPlain (by decide)

/-- No line break is written as it is. -/
theorem not_mem_written (c : Char) : '\n' ∉ written c ∧ '\r' ∉ written c := by
  unfold written
  split
  case h_7 hNewline hReturn _ _ => simp [Ne.symm hNewline, Ne.symm hReturn]
  all_goals decide

/-- Carriage returns leave nothing in a label. -/
theorem flatMap_written_filter (text : List Char) :
    (text.filter (· ≠ '\r')).flatMap written = text.flatMap written := by
  induction text with
  | nil => rfl
  | cons c text ih =>
    by_cases hReturn : c = '\r'
    · rw [hReturn, List.filter_cons_of_neg (by decide), ih]
      rfl
    · rw [List.filter_cons_of_pos (by simpa using hReturn), List.flatMap_cons, ih,
        List.flatMap_cons]

/-! ## The text of a label -/

theorem scan_escape (text : String) :
    scan (escape text).toList = some (text.toList.flatMap tokens) := by
  have hScan := scan_append text.toList []
  rw [List.append_nil] at hScan
  rw [toList_escape, hScan]
  simp [scan]

/-- **Labels can hold any text.** The chain of replacements writes each character on its own. The
text of a label has no line break in it. Its reader meets no quote that is not escaped and no
backslash without a character behind it, and goes on behind the label as if nothing had stood before
it. What the tokens stand for is the text without its carriage returns, so that two texts have the
same label if they differ in carriage returns only. -/
theorem escape_loses_returns_only (text : String) :
    (escape text).toList = text.toList.flatMap written ∧
      '\n' ∉ (escape text).toList ∧ '\r' ∉ (escape text).toList ∧
      (∃ label, scan (escape text).toList = some label ∧ .plain '"' ∉ label ∧
        label.map Token.meaning = text.toList.filter (· ≠ '\r') ∧
        ∀ rest, scan ((escape text).toList ++ rest) = (scan rest).map (label ++ ·)) ∧
      ∀ other : String, escape text = escape other ↔
        text.toList.filter (· ≠ '\r') = other.toList.filter (· ≠ '\r') := by
  have hMissing : ∀ d, (∀ c, d ∉ written c) → d ∉ (escape text).toList := by
    intro d hd hMem
    rw [toList_escape, List.mem_flatMap] at hMem
    obtain ⟨c, -, hMem⟩ := hMem
    exact hd c hMem
  refine ⟨toList_escape text, hMissing _ fun c => (not_mem_written c).1,
    hMissing _ fun c => (not_mem_written c).2,
    ⟨_, scan_escape text, ?_, meaning_flatMap_tokens _, fun rest => ?_⟩, fun other => ?_⟩
  · intro hMem
    obtain ⟨c, -, hMem⟩ := List.mem_flatMap.mp hMem
    exact plain_quote_not_mem_tokens c hMem
  · rw [toList_escape, scan_append]
  · constructor
    · intro hEq
      have hTokens := scan_escape text
      rw [hEq, scan_escape, Option.some.injEq] at hTokens
      rw [← meaning_flatMap_tokens, ← meaning_flatMap_tokens, hTokens]
    · intro hEq
      rw [← String.toList_inj, toList_escape, toList_escape, ← flatMap_written_filter, hEq,
        flatMap_written_filter]

end BytecodeFlow.Dot
