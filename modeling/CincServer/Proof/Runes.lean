import CincServer.Go.Strings

/-!
# Bytes and runes
-/

namespace CincServer.Proof
open Go
open List (map_cons cons_append singleton_append)
open UInt8 (toNat_ofNat' reduceToNat le_iff_toNat_le toNat_inj)

variable {b : UInt8} {s q : GoString}

theorem large_of_isContinuation (continues : isContinuation b) : ¬ b < 0x80 := by
  unfold isContinuation at continues
  grind

theorem large_of_secondAllowed {first : UInt8} (allowed : secondAllowed first b) : ¬ b < 0x80 := by
  unfold secondAllowed at allowed
  simp only [Bool.and_eq_true] at allowed
  exact large_of_isContinuation allowed.1.1.1.1

theorem large_of_mem_width {c : UInt8} {rest : GoString}
    (mem : c ∈ rest.take ((decodeRune (b :: rest)).2 - 1)) :
    ¬ c < 0x80 := by
  simp only [decodeRune] at mem
  split_ifs at mem with ascii two three four
  · simp at mem
  · rcases rest with _ | ⟨b1, rest⟩
    · simp at mem
    · dsimp only at mem
      split_ifs at mem with second
      · obtain rfl : c = b1 := by simpa using mem
        exact large_of_isContinuation second
      · simp at mem
  · rcases rest with _ | ⟨b1, _ | ⟨b2, rest⟩⟩
    · simp at mem
    · simp at mem
    · dsimp only at mem
      split_ifs at mem with others
      · obtain ⟨second, third⟩ := Bool.and_eq_true_iff.mp others
        have either : c = b1 ∨ c = b2 := by simpa using mem
        rcases either with rfl | rfl
        · exact large_of_secondAllowed second
        · exact large_of_isContinuation third
      · simp at mem
  · rcases rest with _ | ⟨b1, _ | ⟨b2, _ | ⟨b3, rest⟩⟩⟩
    · simp at mem
    · simp at mem
    · simp at mem
    · dsimp only at mem
      split_ifs at mem with others
      · obtain ⟨firsts, fourth⟩ := Bool.and_eq_true_iff.mp others
        obtain ⟨second, third⟩ := Bool.and_eq_true_iff.mp firsts
        have either : c = b1 ∨ c = b2 ∨ c = b3 := by simpa using mem
        rcases either with rfl | rfl | rfl
        · exact large_of_secondAllowed second
        · exact large_of_isContinuation third
        · exact large_of_isContinuation fourth
      · simp at mem
  · simp at mem

theorem mem_segmentsFrom_of_ascii (ascii : b < 0x80) (s : GoString) (mem : b ∈ s) (skip : Nat)
    (skipped : ∀ c ∈ s.take skip, ¬ c < 0x80) : b.toNat ∈ (segmentsFrom skip s).map Prod.fst := by
  induction s generalizing skip with
  | nil => cases mem
  | cons first rest ih =>
    cases skip with
    | zero =>
      rw [segmentsFrom, map_cons]
      rcases List.mem_cons.mp mem with rfl | mem
      · simp [decodeRune, ascii]
      · exact List.mem_cons_of_mem _ (ih mem _ fun c taken => large_of_mem_width taken)
    | succ skip =>
      rw [segmentsFrom]
      rcases List.mem_cons.mp mem with rfl | mem
      · exact absurd ascii (skipped b (by simp))
      · exact ih mem skip fun c taken => skipped c (by simp [taken])

theorem not_mem_of_runes {p : Rune → Bool} (all : (runes s).all p) (ascii : b < 0x80)
    (fails : p b.toNat = false) : b ∉ s := by
  intro mem
  have rune := mem_segmentsFrom_of_ascii ascii s mem 0 (by simp)
  have holds := List.all_eq_true.mp all b.toNat rune
  rw [fails] at holds
  cases holds

theorem cut_append {sep front : GoString} (some : sep ≠ [])
    (absent : ¬ sep <:+: front ++ sep.dropLast)
    (rest : GoString) : cut sep (front ++ sep ++ rest) = .some (front, rest) := by
  induction front with
  | nil =>
    obtain ⟨b, tail, rfl⟩ := List.exists_cons_of_ne_nil some
    have here : (b :: tail).isPrefixOf (b :: (tail ++ rest)) :=
      List.isPrefixOf_iff_prefix.mpr ⟨rest, rfl⟩
    rw [List.nil_append, cons_append, cut, if_pos here, ← cons_append, List.drop_left]
  | cons b front ih =>
    have later : ¬ sep.isPrefixOf (b :: (front ++ sep ++ rest)) := by
      intro here
      -- a separator that starts at `b` ends before the last byte of the one behind `front`
      have whole : b :: (front ++ sep ++ rest) = (b :: front ++ sep.dropLast) ++ ([sep.getLast some] ++ rest) := by
        rw [← List.append_assoc, List.append_assoc _ _ [_], List.dropLast_append_getLast]
        simp
      rw [List.isPrefixOf_iff_prefix, whole] at here
      refine absent (List.prefix_of_prefix_length_le here (List.prefix_append _ _) ?_).isInfix
      simp
      omega
    have tail : ¬ sep <:+: front ++ sep.dropLast := fun inner =>
      absent (inner.trans (List.suffix_cons _ _).isInfix)
    rw [cons_append, cons_append, cut, if_neg later, ih tail]
    rfl

theorem cut_of_not_mem {front rest : GoString} (plain : 0x2F ∉ front) :
    cut (lit "/") (front ++ lit "/" ++ rest) = some (front, rest) := by
  refine cut_append (List.cons_ne_nil _ _) (fun inner => plain ?_) rest
  have mem := inner.subset (List.mem_singleton_self 0x2F)
  simpa [lit] using mem

inductive Sequence : GoString → Prop
  | one {b : UInt8} (ascii : b < 0x80) : Sequence [b]
  | two {b0 b1 : UInt8} (first : 0xC2 ≤ b0 && b0 ≤ 0xDF) (second : isContinuation b1) : Sequence [b0, b1]
  | three {b0 b1 b2 : UInt8} (first : 0xE0 ≤ b0 && b0 ≤ 0xEF)
      (others : secondAllowed b0 b1 && isContinuation b2) : Sequence [b0, b1, b2]
  | four {b0 b1 b2 b3 : UInt8} (first : 0xF0 ≤ b0 && b0 ≤ 0xF4)
      (others : secondAllowed b0 b1 && isContinuation b2 && isContinuation b3) : Sequence [b0, b1, b2, b3]

section Decoding

variable {b0 b1 b2 b3 : UInt8} (rest : GoString)

theorem decodeRune_one (ascii : b0 < 0x80) : decodeRune (b0 :: rest) = (b0.toNat, 1) := by
  simp only [decodeRune, if_pos ascii]

theorem decodeRune_two (first : 0xC2 ≤ b0 && b0 ≤ 0xDF) (second : isContinuation b1) :
    decodeRune (b0 :: b1 :: rest) = ((b0.toNat - 0xC0) * 64 + (b1.toNat - 0x80), 2) := by
  have large : ¬ b0 < 0x80 := by grind
  simp only [decodeRune, if_neg large, if_pos first, if_pos second]

theorem decodeRune_three (first : 0xE0 ≤ b0 && b0 ≤ 0xEF)
    (others : secondAllowed b0 b1 && isContinuation b2) :
    decodeRune (b0 :: b1 :: b2 :: rest) =
      ((b0.toNat - 0xE0) * 4096 + (b1.toNat - 0x80) * 64 + (b2.toNat - 0x80), 3) := by
  have large : ¬ b0 < 0x80 := by grind
  have notTwo : ¬ (0xC2 ≤ b0 && b0 ≤ 0xDF) := by grind
  simp only [decodeRune, if_neg large, if_neg notTwo, if_pos first, if_pos others]

theorem decodeRune_four (first : 0xF0 ≤ b0 && b0 ≤ 0xF4)
    (others : secondAllowed b0 b1 && isContinuation b2 && isContinuation b3) :
    decodeRune (b0 :: b1 :: b2 :: b3 :: rest) =
      ((b0.toNat - 0xF0) * 262144 + (b1.toNat - 0x80) * 4096 + (b2.toNat - 0x80) * 64 + (b3.toNat - 0x80), 4) := by
  have large : ¬ b0 < 0x80 := by grind
  have notTwo : ¬ (0xC2 ≤ b0 && b0 ≤ 0xDF) := by grind
  have notThree : ¬ (0xE0 ≤ b0 && b0 ≤ 0xEF) := by grind
  simp only [decodeRune, if_neg large, if_neg notTwo, if_neg notThree, if_pos first, if_pos others]

end Decoding

def Decoded (r : Rune) (width : Nat) : Prop := width ≠ 0 ∧ ¬ (r = runeError ∧ width = 1)

theorem decodeRune_append (seq : Sequence q) (rest : GoString) :
    ∃ r, decodeRune (q ++ rest) = (r, q.length) ∧ Decoded r q.length := by
  cases seq with
  | @one b ascii =>
    refine ⟨_, decodeRune_one rest ascii, Nat.one_ne_zero, fun failed => ?_⟩
    have small : b.toNat < 128 := UInt8.lt_iff_toNat_lt.mp ascii
    have large : b.toNat = 0xFFFD := failed.1
    omega
  | two first second => exact ⟨_, decodeRune_two rest first second, by simp, by simp⟩
  | three first others => exact ⟨_, decodeRune_three rest first others, by simp, by simp⟩
  | four first others => exact ⟨_, decodeRune_four rest first others, by simp, by simp⟩

theorem sequence_of_decodeRune {text : GoString} {r : Rune} {width : Nat}
    (decodes : decodeRune text = (r, width))
    (decoded : Decoded r width) : Sequence (text.take width) ∧ width ≤ text.length := by
  have failed {n : Nat} (same : (runeError, n) = (r, width)) (short : n ≤ 1) : False := by
    cases same
    rcases Nat.le_one_iff_eq_zero_or_eq_one.mp short with rfl | rfl
    · exact decoded.1 rfl
    · exact decoded.2 ⟨rfl, rfl⟩
  revert decodes
  fun_cases decodeRune text
  case case2 ascii =>
    intro decodes
    obtain ⟨rfl, rfl⟩ := Prod.mk.inj decodes
    exact ⟨.one ascii, by simp⟩
  case case3 two _ _ second =>
    intro decodes
    obtain ⟨rfl, rfl⟩ := Prod.mk.inj decodes
    exact ⟨.two two second, by simp⟩
  case case6 three _ _ _ others =>
    intro decodes
    obtain ⟨rfl, rfl⟩ := Prod.mk.inj decodes
    exact ⟨.three three others, by simp⟩
  case case9 four _ _ _ _ others =>
    intro decodes
    obtain ⟨rfl, rfl⟩ := Prod.mk.inj decodes
    exact ⟨.four four others, by simp⟩
  all_goals exact fun decodes => (failed decodes (by simp)).elim

theorem encodeRune_spec {r : Nat} (small : r ≤ 0x10FFFF) (scalar : ¬ (0xD800 ≤ r ∧ r ≤ 0xDFFF)) :
    Sequence (encodeRune r) ∧ ∀ rest, (decodeRune (encodeRune r ++ rest)).1 = r := by
  have notError : ¬ ((decide (r > 0x10FFFF) || (decide (0xD800 ≤ r) && decide (r ≤ 0xDFFF))) = true) := by
    simp only [Bool.or_eq_true, Bool.and_eq_true, decide_eq_true_eq]
    omega
  unfold encodeRune
  by_cases one : r < 0x80
  · rw [if_pos one]
    have ascii : UInt8.ofNat r < 0x80 := by
      simp only [UInt8.lt_iff_toNat_lt, toNat_ofNat', reduceToNat]
      omega
    refine ⟨.one ascii, fun rest => ?_⟩
    rw [singleton_append, decodeRune_one rest ascii]
    exact UInt8.toNat_ofNat_of_lt (Nat.lt_trans one (by decide))
  rw [if_neg one]
  by_cases two : r < 0x800
  · rw [if_pos two]
    have first : 0xC2 ≤ UInt8.ofNat (0xC0 + r / 64) && UInt8.ofNat (0xC0 + r / 64) ≤ 0xDF := by
      simp only [Bool.and_eq_true, decide_eq_true_eq, le_iff_toNat_le, toNat_ofNat', reduceToNat]
      omega
    have second : isContinuation (UInt8.ofNat (0x80 + r % 64)) := by
      simp only [isContinuation, Bool.and_eq_true, decide_eq_true_eq, le_iff_toNat_le, toNat_ofNat',
        reduceToNat]
      omega
    refine ⟨.two first second, fun rest => ?_⟩
    rw [cons_append, singleton_append, decodeRune_two rest first second]
    simp only [toNat_ofNat']
    change (_ : Nat) = r
    omega
  rw [if_neg two, if_neg notError]
  by_cases three : r < 0x10000
  · rw [if_pos three]
    have first : 0xE0 ≤ UInt8.ofNat (0xE0 + r / 4096) && UInt8.ofNat (0xE0 + r / 4096) ≤ 0xEF := by
      simp only [Bool.and_eq_true, decide_eq_true_eq, le_iff_toNat_le, toNat_ofNat', reduceToNat]
      omega
    have others : secondAllowed (UInt8.ofNat (0xE0 + r / 4096)) (UInt8.ofNat (0x80 + r / 64 % 64)) &&
        isContinuation (UInt8.ofNat (0x80 + r % 64)) := by
      simp only [secondAllowed, isContinuation, Bool.and_eq_true, Bool.or_eq_true, bne_iff_ne,
        ne_eq, decide_eq_true_eq, le_iff_toNat_le, ← toNat_inj, toNat_ofNat', reduceToNat]
      omega
    refine ⟨.three first others, fun rest => ?_⟩
    rw [cons_append, cons_append, singleton_append, decodeRune_three rest first others]
    simp only [toNat_ofNat']
    change (_ : Nat) = r
    omega
  · rw [if_neg three]
    have first : 0xF0 ≤ UInt8.ofNat (0xF0 + r / 262144) && UInt8.ofNat (0xF0 + r / 262144) ≤ 0xF4 := by
      simp only [Bool.and_eq_true, decide_eq_true_eq, le_iff_toNat_le, toNat_ofNat', reduceToNat]
      omega
    have others : secondAllowed (UInt8.ofNat (0xF0 + r / 262144)) (UInt8.ofNat (0x80 + r / 4096 % 64)) &&
        isContinuation (UInt8.ofNat (0x80 + r / 64 % 64)) && isContinuation (UInt8.ofNat (0x80 + r % 64)) := by
      simp only [secondAllowed, isContinuation, Bool.and_eq_true, Bool.or_eq_true, bne_iff_ne,
        ne_eq, decide_eq_true_eq, le_iff_toNat_le, ← toNat_inj, toNat_ofNat', reduceToNat]
      omega
    refine ⟨.four first others, fun rest => ?_⟩
    rw [cons_append, cons_append, cons_append, singleton_append, decodeRune_four rest first others]
    simp only [toNat_ofNat']
    change (_ : Nat) = r
    omega

theorem segmentsFrom_append (front rest : GoString) :
    segmentsFrom front.length (front ++ rest) = segments rest := by
  induction front with
  | nil => rfl
  | cons b front ih => exact ih

theorem segments_append (seq : Sequence q) (rest : GoString) :
    segments (q ++ rest) = ((decodeRune (q ++ rest)).1, q) :: segments rest := by
  obtain ⟨r, decodes, -⟩ := decodeRune_append seq rest
  cases q with
  | nil => cases seq
  | cons b q =>
    rw [cons_append] at decodes ⊢
    rw [segments, segmentsFrom, decodes]
    dsimp only
    rw [List.length_cons, Nat.add_sub_cancel, segmentsFrom_append, List.take_succ_cons,
      List.take_left']
    rfl

theorem runes_ascii (ascii : isASCII s) : runes s = s.map UInt8.toNat := by
  induction s with
  | nil => rfl
  | cons b rest ih =>
    have both : b < 0x80 ∧ isASCII rest := by simpa [isASCII] using ascii
    have step := segments_append (.one both.1) rest
    rw [singleton_append, decodeRune_one rest both.1] at step
    rw [runes, step, map_cons, map_cons, ← ih both.2]
    rfl

theorem runes_flatMap_encodeRune {rs : List Rune}
    (scalar : ∀ r ∈ rs, r ≤ 0x10FFFF ∧ ¬ (0xD800 ≤ r ∧ r ≤ 0xDFFF)) :
    runes (rs.flatMap encodeRune) = rs := by
  induction rs with
  | nil => rfl
  | cons r rs ih =>
    obtain ⟨first, others⟩ := List.forall_mem_cons.mp scalar
    obtain ⟨seq, reads⟩ := encodeRune_spec first.1 first.2
    rw [List.flatMap_cons, runes, segments_append seq, reads, map_cons]
    exact congrArg _ (ih others)

def validString (s : GoString) : Bool :=
  (segments s).all fun segment => !(segment.1 == runeError && segment.2.length == 1)

theorem validString_append (seq : Sequence q) (rest : GoString) :
    validString (q ++ rest) = validString rest := by
  obtain ⟨r, decodes, -, decoded⟩ := decodeRune_append seq rest
  rw [validString, segments_append seq, decodes, List.all_cons, ← validString]
  simp only [Bool.and_eq_right_iff_imp, Bool.not_eq_true', Bool.and_eq_false_imp, beq_iff_eq,
    beq_eq_false_iff_ne]
  exact fun _ error one => decoded ⟨error, one⟩

theorem segments_induction {motive : GoString → Prop} (nil : motive [])
    (append : ∀ q rest, Sequence q → motive rest → motive (q ++ rest))
    (invalid : ∀ b rest, segments (b :: rest) = (runeError, [b]) :: segments rest → motive rest → motive (b :: rest))
    (s : GoString) : motive s := by
  induction size : s.length using Nat.strong_induction_on generalizing s with
  | _ n ih =>
    subst size
    cases s with
    | nil => exact nil
    | cons b rest =>
      cases decodes : decodeRune (b :: rest) with
      | mk r width =>
        have wide : width ≠ 0 := by
          rintro rfl
          simp only [decodeRune] at decodes
          grind
        by_cases error : r = runeError ∧ width = 1
        · obtain ⟨rfl, rfl⟩ := error
          exact invalid b rest (by simp [segments, segmentsFrom, decodes]) (ih _ (Nat.lt_succ_self _) rest rfl)
        · have seq := (sequence_of_decodeRune decodes ⟨wide, error⟩).1
          rw [← List.take_append_drop width (b :: rest)]
          exact append _ _ seq (ih _ (by simp; omega) _ rfl)

theorem validString_induction {motive : GoString → Prop} (nil : motive [])
    (append : ∀ q rest, Sequence q → validString rest → motive rest → motive (q ++ rest))
    (valid : validString s) : motive s := by
  refine segments_induction (motive := fun s => validString s → motive s)
    (fun _ => nil) ?_ ?_ s valid
  · intro q rest seq ih valid
    rw [validString_append seq] at valid
    exact append q rest seq valid (ih valid)
  · intro b rest invalid _ valid
    simp [validString, invalid] at valid

theorem flatMap_segments (valid : validString s) : (segments s).flatMap Prod.snd = s := by
  refine validString_induction (motive := fun s => (segments s).flatMap Prod.snd = s) rfl ?_ valid
  intro q rest seq _ ih
  rw [segments_append seq, List.flatMap_cons, ih]

theorem trimSpace_eq_self (valid : validString s) (front : ∀ r ∈ (runes s).head?, isSpace r = false)
    (back : ∀ r ∈ (runes s).getLast?, isSpace r = false) : trimSpace s = s := by
  have kept (l : List (Rune × GoString)) (first : ∀ r ∈ (l.map Prod.fst).head?, isSpace r = false) :
      l.dropWhile (fun segment => isSpace segment.1) = l := by
    cases l with
    | nil => rfl
    | cons segment l => rw [List.dropWhile_cons, first segment.1 rfl, if_neg Bool.false_ne_true]
  rw [trimSpace, kept _ front, kept, List.reverse_reverse, flatMap_segments valid]
  rwa [List.map_reverse, List.head?_reverse]

end CincServer.Proof
