import CincServer.Api.Jsonstr
import CincServer.Proof.Json.Normalize

/-!
# Escaped strings and listings read back
-/

namespace CincServer.Proof.Api
open CincServer.Api CincServer.Json Jsontext Chefjson Go Lib Proof.Json
open UInt8 (le_iff_toNat_le reduceToNat toNat_inj)

variable {q s base literal url : GoString}

theorem appendRuns_eq {α : Type} (bytes : α → GoString) (escape : α → Option GoString)
    (pending : GoString)
    (cs : List α) : appendRuns bytes escape pending cs = pending ++ cs.flatMap fun c => (escape c).getD (bytes c) := by
  induction cs generalizing pending with
  | nil => simp [appendRuns]
  | cons c rest ih =>
    rw [appendRuns]
    cases escaped : escape c <;> simp [ih, escaped]

theorem appendStringRuns_eq (s : GoString) : appendStringRuns s = appendString s := by
  simp only [appendStringRuns, appendString, appendRuns_eq, List.nil_append]
  congr 2
  funext c
  unfold escapeByte
  split_ifs <;> rfl

/-- What the string has for a reader of runes: U+FFFD for each byte that belongs to none. -/
def replaceInvalid (s : GoString) : GoString :=
  (segments s).flatMap fun (c, bytes) =>
    if c == runeError && bytes.length == 1 then [0xEF, 0xBF, 0xBD] else bytes

theorem replaceInvalid_append (seq : Sequence q) (s : GoString) :
    replaceInvalid (q ++ s) = q ++ replaceInvalid s := by
  obtain ⟨c, decodes, -, decoded⟩ := decodeRune_append seq s
  have valid : ¬ (c == runeError && q.length == 1) = true := by simpa using decoded
  simp only [replaceInvalid, segments_append seq, decodes, List.flatMap_cons, if_neg valid]

theorem replaceInvalid_eq (valid : validString s) : replaceInvalid s = s := by
  refine validString_induction (motive := fun s => replaceInvalid s = s) rfl ?_ valid
  intro q rest seq _ ih
  rw [replaceInvalid_append seq, ih]

theorem decodeRune_wide (seq : Sequence q) (wide : q.length ≠ 1) (rest : GoString) :
    ∃ c : Nat, (decodeRune (q ++ rest)).1 = c ∧ 0x80 ≤ c ∧ (c = 0x2028 → q = [0xE2, 0x80, 0xA8]) ∧
      (c = 0x2029 → q = [0xE2, 0x80, 0xA9]) := by
  cases seq
  case one => exact absurd rfl wide
  case' two first second => refine ⟨_, congrArg Prod.fst (decodeRune_two rest first second), ?_⟩
  case' three first others => refine ⟨_, congrArg Prod.fst (decodeRune_three rest first others), ?_⟩
  case' four first others => refine ⟨_, congrArg Prod.fst (decodeRune_four rest first others), ?_⟩
  all_goals
    simp only [secondAllowed, isContinuation, Bool.and_eq_true, Bool.or_eq_true, bne_iff_ne, ne_eq,
      decide_eq_true_eq, le_iff_toNat_le, ← toNat_inj, reduceToNat, List.cons.injEq, reduceCtorEq,
      and_true, and_false] at *
    omega

theorem piece_escapeChar (seq : Sequence q) (rest : GoString) :
    Piece ((escapeChar ((decodeRune (q ++ rest)).1, q)).getD q) q := by
  by_cases wide : q.length = 1
  · cases seq with
    | @one b ascii =>
      rw [List.singleton_append, decodeRune_one rest ascii]
      by_cases plain : Plain b
      · have kept : escapeChar (b.toNat, [b]) = none := by
          obtain ⟨high, notQuote, notEscape⟩ := plain
          simp only [le_iff_toNat_le, ne_eq, ← toNat_inj, reduceToNat, UInt8.lt_iff_toNat_lt] at *
          simp [escapeChar, *]
        rw [kept]
        exact piece_sequence (.one ascii) (by simpa using plain)
      · refine special_cases (P := fun b => Piece ((escapeChar (b.toNat, [b])).getD [b]) [b]) ?_ ?_ ?_ plain
        · intro n small
          interval_cases n <;> exact piece_escape (fun _ => rfl) (by decide +kernel)
        all_goals exact piece_escape (fun _ => rfl) (by decide +kernel)
    | _ => cases wide
  · obtain ⟨c, decodes, large, line, paragraph⟩ := decodeRune_wide seq wide rest
    rw [decodes]
    by_cases separator : c = 0x2028 ∨ c = 0x2029
    · rcases separator with rfl | rfl
      · rw [line rfl]
        exact piece_escape (fun _ => rfl) (by decide +kernel)
      · rw [paragraph rfl]
        exact piece_escape (fun _ => rfl) (by decide +kernel)
    · have kept : escapeChar (c, q) = none := by
        simp [escapeChar, Nat.not_lt.mpr large, wide, not_or.mp separator]
      rw [kept]
      refine piece_sequence seq ((singleton_or_plain seq).resolve_left ?_)
      rintro ⟨b, rfl⟩
      exact wide rfl

theorem spells_content (s : GoString) : Spells (appendJSONStringContent s) (replaceInvalid s) := by
  rw [appendJSONStringContent, appendRuns_eq, List.nil_append, replaceInvalid]
  refine segments_induction
    (motive := fun s => Spells ((segments s).flatMap fun c => (escapeChar c).getD c.2)
    (replaceInvalid s)) .nil ?_ ?_ s
  · intro q rest seq ih
    rw [replaceInvalid_append seq, segments_append seq, List.flatMap_cons]
    exact .append (piece_escapeChar seq rest) ih
  · intro b rest invalid ih
    rw [replaceInvalid, invalid, List.flatMap_cons, List.flatMap_cons]
    have piece : Piece [0xEF, 0xBF, 0xBD] [0xEF, 0xBF, 0xBD] :=
      piece_sequence (.three rfl rfl) (by decide +kernel)
    exact .append piece ih

theorem text_of_valid (valid : validString s) : Text s := by
  refine validString_induction (motive := Text) ⟨[], by simp, rfl⟩ ?_ valid
  rintro q rest seq _ ⟨chars, sequences, rfl⟩
  exact ⟨q :: chars, List.forall_mem_cons.mpr ⟨seq, sequences⟩, rfl⟩

theorem newDecoder_eq {toks : List Token} (lexed : lex readToken 0 [] s = (toks, [], [])) :
    newDecoder s = ⟨toks, true⟩ := by
  rw [newDecoder, lexed]
  rfl

theorem parse_quoted (spells : Spells literal s) : parse (quoted literal) = some (.string s) := by
  have legible : Legible (.string literal) := ⟨s, spells⟩
  have lexed : lex readToken 0 [] (quoted literal ++ []) = ([.string literal], [], []) :=
    lex_chunk legible rfl trivial
  rw [List.append_nil] at lexed
  rw [parse_eq_some, newDecoder_eq lexed]
  exact ⟨by simp [decode, tokenString, spells.unquote], rfl⟩

def listed (base : GoString) (keys : List GoString) : List Token :=
  keys.flatMap fun k =>
    [.string (appendJSONStringContent k), .string (base ++ appendJSONStringContent k)]

theorem lex_listEntries (spells : Spells base url) (keys : List GoString) (n : Nat)
    (even : n % 2 = 0) :
    lex readToken 0 [⟨true, n⟩] (listEntries base (n == 0) keys ++ lit "\x7d") =
      (listed base keys ++ [.objectEnd], [], []) := by
  induction keys generalizing n with
  | nil =>
    have step : advance [⟨true, n⟩] .objectEnd = some [] := by simp [advance, even]
    have closed := @lex_chunk .objectEnd [] _ _ trivial step trivial
    rwa [List.append_nil] at closed
  | cons k keys ih =>
    have odd : (n + 1) % 2 = 1 := by omega
    have name : Legible (.string (appendJSONStringContent k)) := ⟨_, spells_content k⟩
    have value : Legible (.string (base ++ appendJSONStringContent k)) :=
      ⟨_, spells.trans (spells_content k)⟩
    have chunks : listEntries base (n == 0) (k :: keys) ++ lit "\x7d" =
        tokenChunk [⟨true, n⟩] (.string (appendJSONStringContent k)) ++
          (tokenChunk [⟨true, n + 1⟩] (.string (base ++ appendJSONStringContent k)) ++
            (listEntries base (n + 2 == 0) keys ++ lit "\x7d")) := by
      simp [listEntries, tokenChunk, isEnd, tokenText, separator_key even, separator_colon odd]
    rw [chunks, lex_chunk name rfl trivial, count, lex_chunk value rfl trivial, count,
      ih (n + 2) (by omega)]
    rfl

theorem decodeMembers_listed (spells : Spells base url) (keys : List GoString) (fuel : Nat) :
    decodeMembers (fuel + keys.length + 1) (listed base keys ++ [.objectEnd]) =
      some (keys.map fun k => (replaceInvalid k, .string (url ++ replaceInvalid k)), []) := by
  induction keys with
  | nil => rfl
  | cons k keys ih =>
    have name := (spells_content k).unquote
    have value := (spells.trans (spells_content k)).unquote
    change decodeMembers (fuel + keys.length + 1 + 1)
      (.string _ :: .string _ :: (listed base keys ++ _)) = _
    rw [decodeMembers_key, decode, Option.bind_some]
    dsimp only
    rw [ih]
    simp [tokenString, name, value]

theorem parse_listObjects (r : Request) (org segment : GoString) (keys : List GoString) :
    parse (listObjects r org segment keys) = some (.object (keys.map fun k =>
      (replaceInvalid k, .string (replaceInvalid (objectURL r org segment []) ++ replaceInvalid k)))) := by
  have url := spells_content (objectURL r org segment [])
  rw [listObjects, List.append_assoc]
  generalize appendJSONStringContent (objectURL r org segment []) = base at url ⊢
  have lexed : lex readToken 0 [] (lit "\x7b" ++ (listEntries base true keys ++ lit "\x7d")) =
      (.objectStart :: (listed base keys ++ [.objectEnd]), [], []) :=
    (@lex_chunk .objectStart _ [] _ trivial rfl trivial).trans
      (congrArg (fun (toks, ending) => (Token.objectStart :: toks, ending)) (lex_listEntries url keys 0 rfl))
  have size : 2 * (listed base keys ++ [Token.objectEnd]).length + 2 =
      3 * keys.length + 3 + keys.length + 1 := by
    simp [listed]
    omega
  rw [parse_eq_some, newDecoder_eq lexed, List.length_cons, Nat.mul_succ, size, decode,
    decodeMembers_listed url]
  exact ⟨rfl, rfl⟩

theorem escapers_invert (r : Request) (org segment s : GoString) (keys : List GoString) :
    (validString s → parse (appendStringRuns s) = some (.string s) ∧
      parse (quoted (appendJSONStringContent s)) = some (.string s)) ∧
    ((∀ k ∈ keys, validString k) → parse (listObjects r org segment keys) = some (.object (keys.map fun k =>
      (k, .string (replaceInvalid (objectURL r org segment []) ++ k))))) ∧
    parse (quoted (appendJSONStringContent s)) = some (.string (replaceInvalid s)) ∧
    ∀ t, validString t → replaceInvalid t = t := by
  have content := parse_quoted (spells_content s)
  refine ⟨fun valid => ⟨?_, ?_⟩, fun valid => ?_, content, fun t => replaceInvalid_eq⟩
  · rw [appendStringRuns_eq]
    exact parse_quoted (spells_escaped (text_of_valid valid))
  · rw [content, replaceInvalid_eq valid]
  · rw [parse_listObjects]
    congr 2
    refine List.map_congr_left fun k mem => ?_
    rw [replaceInvalid_eq (valid k mem)]

theorem escapers_invert_quote :
    parse (appendStringRuns (lit "\"")) = some (.string (lit "\"")) ∧
      parse (listObjects ⟨none, 0, .malformed [], [], none⟩ [] (lit "nodes") [lit "\""]) =
        some (.object [(lit "\"", .string (lit "/nodes/\""))]) := by
  have inverts := escapers_invert ⟨none, 0, .malformed [], [], none⟩ [] (lit "nodes") (lit "\"") [lit "\""]
  exact ⟨(inverts.1 (by decide)).1, (inverts.2.1 (by decide)).trans rfl⟩

end CincServer.Proof.Api
