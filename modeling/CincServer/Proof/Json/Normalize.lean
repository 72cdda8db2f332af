import CincServer.Json.Readers
import CincServer.Proof.Decoding
import CincServer.Proof.Json.Numbers

/-!
# The stored form is a normal form
-/

namespace CincServer.Proof.Json
open CincServer.Json CincServer.Json.Jsontext CincServer.Json.Chefjson Go Lib
open Option (map_some pure_def bind_eq_bind map_eq_bind isSome_some bind_some)

variable {tok : Token} {text s : GoString} {top : Frame} {fuel : Nat}

theorem isEnd_settle (tok : Token) : isEnd (settle tok) = isEnd tok := by
  cases tok <;> rfl

theorem advance_settle (frames : List Frame) (tok : Token) :
    advance frames (settle tok) = advance frames tok := by
  cases tok <;> rfl

theorem advance_end {stack stack' : List Frame} (closes : isEnd tok = true)
    (step : advance stack tok = some stack') : stack.tail = stack' := by
  cases tok with
  | objectEnd =>
    simp only [advance] at step
    split at step
    · split_ifs at step
      exact Option.some.inj step
    · cases step
  | arrayEnd =>
    simp only [advance] at step
    split at step
    · exact Option.some.inj step
    · cases step
  | _ => cases closes

theorem advance_value {stack stack' : List Frame} (value : isEnd tok = false)
    (step : advance stack tok = some stack') : opened tok ++ count stack = stack' := by
  cases tok with
  | objectEnd | arrayEnd => cases value
  | string literal => exact Option.some.inj step
  | _ =>
    simp only [advance, push] at step
    split_ifs at step
    exact Option.some.inj step

theorem emit_eq_some {stack stack' : List Frame} (sound : Sound tok)
    (step : advance stack tok = some stack') (writes : rewrite tok = some text) :
    emit tok stack = some (tokenChunk stack (settle tok), stack') := by
  obtain ⟨rfl, -⟩ := rewrite_settle sound writes
  rw [emit, tokenChunk, isEnd_settle, writes, map_some, map_some]
  cases value : isEnd tok with
  | true => rw [if_pos rfl, if_pos rfl, advance_end value step]
  | false => rw [if_neg Bool.false_ne_true, if_neg Bool.false_ne_true, advance_value value step]

theorem rewrite_of_emit {stack : List Frame} {written : GoString × List Frame}
    (emits : emit tok stack = some written) : ∃ text, rewrite tok = some text := by
  unfold emit at emits
  split_ifs at emits
  all_goals
    obtain ⟨text, writes, -⟩ := Option.map_eq_some_iff.mp emits
    exact ⟨text, writes⟩

def resume (stack : List Frame) (rest : List Token) (out : GoString) :
    Option (GoString × List Token) :=
  if stack.isEmpty then some (out, rest) else normalizeLoop rest stack out

theorem normalizeLoop_cons {stack stack' : List Frame}
    (emits : emit tok stack = some (text, stack')) (rest : List Token) (out : GoString) :
    normalizeLoop (tok :: rest) stack out = resume stack' rest (out ++ text) := by
  rw [normalizeLoop, emits]
  rfl

theorem Legible.sound (legible : Legible tok) : Sound tok := by
  cases tok with
  | string literal =>
    obtain ⟨s, spells⟩ := legible
    exact Option.isSome_of_eq_some spells.unquote
  | number literal => exact legible
  | _ => trivial

theorem emit_settled {stack stack' : List Frame} (settled : Settled tok)
    (step : advance stack tok = some stack') :
    emit tok stack = some (tokenChunk stack tok, stack') := by
  obtain ⟨writes, same⟩ := rewrite_settled settled
  rw [emit_eq_some settled.legible.sound step writes, same]

theorem tokenChunk_ne_nil (legible : Legible tok) (stack : List Frame) :
    tokenChunk stack tok ≠ [] := by
  unfold tokenChunk
  split_ifs with closes
  · cases tok with
    | objectEnd | arrayEnd => decide
    | _ => cases closes
  · obtain ⟨b, more, head, -⟩ := tokenText_head legible (Bool.eq_false_of_not_eq_true closes)
    simp [head]

theorem lex_chunk {stack stack' : List Frame} (legible : Legible tok)
    (step : advance stack tok = some stack')
    (closed : Closed tok text) : lex readToken 0 stack (tokenChunk stack tok ++ text) =
      (tok :: (lex readToken 0 stack' text).1, (lex readToken 0 stack' text).2) :=
  lex_append (tokenChunk_ne_nil legible stack) (readToken_chunk legible step closed)

theorem count_pos {stack outer : List Frame} (counted : count stack = top :: outer) :
    0 < top.n := by
  cases stack with
  | nil => cases counted
  | cons inner more =>
    cases counted
    exact Nat.succ_pos inner.n

theorem ends_chunk (tok : Token) (later : 0 < top.n) (outer : List Frame) (rest : GoString) :
    Ends (tokenChunk (top :: outer) tok ++ rest) := by
  have start : ∃ b more, tokenChunk (top :: outer) tok = b :: more ∧
      (¬ isDigit b ∧ b ≠ 0x2E ∧ b ≠ 0x65 ∧ b ≠ 0x45) := by
    unfold tokenChunk
    split_ifs with closes
    · cases tok with
      | objectEnd | arrayEnd => exact ⟨_, _, rfl, by decide⟩
      | _ => cases closes
    · rw [separator]
      split_ifs
      all_goals exact ⟨_, _, rfl, by decide⟩
  obtain ⟨b, more, head, stops⟩ := start
  rw [head]
  simpa [Ends] using stops

structure Rereads (stack : List Frame) (read : List Token) (text : GoString) : Prop where
  lexed : lex readToken 0 stack text = (read, [], [])
  rewritten : ∀ out, normalizeLoop read stack out = some (out ++ text, [])
  ends : ∀ top ∈ stack.head?, 0 < top.n → Ends text

theorem Rereads.last {stack : List Frame} (settled : Settled tok)
    (step : advance stack tok = some []) : Rereads stack [tok] (tokenChunk stack tok) := by
  have closed : Closed tok [] := by
    cases tok <;> simp [Closed, Ends]
  refine ⟨?_, ?_, ?_⟩
  · have reads := lex_chunk settled.legible step closed
    rwa [List.append_nil] at reads
  · intro out
    rw [normalizeLoop_cons (emit_settled settled step)]
    rfl
  · intro top member later
    obtain ⟨outer, rfl⟩ : ∃ outer, stack = top :: outer := List.head?_eq_some_iff.mp member
    simpa using ends_chunk tok later outer []

theorem Rereads.cons {stack : List Frame} {outer : List Frame} {read : List Token}
    (settled : Settled tok) (step : advance stack tok = some (top :: outer))
    (rereads : Rereads (top :: outer) read text) :
    Rereads stack (tok :: read) (tokenChunk stack tok ++ text) := by
  have closed : Closed tok text := by
    cases tok with
    | number literal =>
      have counted : count stack = top :: outer := advance_value rfl step
      exact rereads.ends top rfl (count_pos counted)
    | _ => trivial
  refine ⟨?_, ?_, ?_⟩
  · rw [lex_chunk settled.legible step closed, rereads.lexed]
  · intro out
    rw [normalizeLoop_cons (emit_settled settled step), resume, if_neg (by simp),
      rereads.rewritten, List.append_assoc]
  · intro top member later
    obtain ⟨outer, rfl⟩ : ∃ outer, stack = top :: outer := List.head?_eq_some_iff.mp member
    exact ends_chunk tok later outer text

theorem rereads_of_normalizeLoop {toks rest : List Token} {stack : List Frame} {out out' : GoString}
    (sound : ∀ tok ∈ toks, Sound tok) (follows : Follows advance stack toks)
    (runs : normalizeLoop toks stack out = some (out', rest)) :
    ∃ read text, toks = read ++ rest ∧ out' = out ++ text ∧ (∀ tok ∈ read, (rewrite tok).isSome) ∧
      Rereads stack (read.map settle) text := by
  induction toks generalizing stack out with
  | nil => cases runs
  | cons tok toks ih =>
    obtain ⟨stack', step, follows⟩ := follows
    obtain ⟨soundTok, sound⟩ := List.forall_mem_cons.mp sound
    cases emits : emit tok stack with
    | none =>
      rw [normalizeLoop, emits] at runs
      cases runs
    | some written =>
      obtain ⟨text, writes⟩ := rewrite_of_emit emits
      have settled := (rewrite_settle soundTok writes).2
      have step' := (advance_settle stack tok).trans step
      have accepts : (rewrite tok).isSome := Option.isSome_of_eq_some writes
      rw [normalizeLoop_cons (emit_eq_some soundTok step writes), resume] at runs
      cases stack' with
      | nil =>
        cases runs
        exact ⟨[tok], _, rfl, rfl, by simpa using accepts, .last settled step'⟩
      | cons top outer =>
        obtain ⟨read, text, rfl, rfl, accepted, rereads⟩ := ih sound follows runs
        refine ⟨tok :: read, _, rfl, List.append_assoc .., ?_, .cons settled step' rereads⟩
        exact List.forall_mem_cons.mpr ⟨accepts, accepted⟩

def Ready (stack : List Frame) (toks : List Token) : Prop :=
  (∀ tok ∈ toks, Sound tok ∧ (rewrite tok).isSome) ∧ Follows advance stack toks

inductive Agrees {α : Type} (toks : List Token) (stack : List Frame) (out : GoString)
    (text : α → GoString) :
    Option (α × List Token) → Option (GoString × List Token) → Prop
  | fails : Agrees toks stack out text none none
  | gives {a : α} {rest : List Token} (ready : Ready stack rest) (shorter : rest.length < toks.length) :
      Agrees toks stack out text (some (a, rest)) (resume stack rest (out ++ text a))

def ValueAgrees (fuel : Nat) : Prop :=
  ∀ (toks : List Token) (stack : List Frame) (out : GoString), 2 * toks.length + 1 ≤ fuel → Ready stack toks →
    needsName stack = false → (∀ tok ∈ toks.head?, isEnd tok = false) →
    Agrees toks (count stack) out (fun v => separator stack ++ appendValue v) (decode fuel toks)
      (normalizeLoop toks stack out)

def MembersAgree (fuel : Nat) : Prop :=
  ∀ (toks : List Token) (n : Nat) (outer : List Frame) (out : GoString), 2 * toks.length + 2 ≤ fuel →
    Ready (⟨true, n⟩ :: outer) toks → n % 2 = 0 →
    Agrees toks outer out (fun members => appendMembers (n == 0) members ++ lit "\x7d") (decodeMembers fuel toks)
      (normalizeLoop toks (⟨true, n⟩ :: outer) out)

def ElemsAgree (fuel : Nat) : Prop :=
  ∀ (toks : List Token) (n : Nat) (outer : List Frame) (out : GoString), 2 * toks.length + 2 ≤ fuel →
    Ready (⟨false, n⟩ :: outer) toks →
    Agrees toks outer out (fun elems => appendElems (n == 0) elems ++ lit "]") (decodeElems fuel toks)
      (normalizeLoop toks (⟨false, n⟩ :: outer) out)

theorem Ready.cons {stack : List Frame} {toks : List Token} (ready : Ready stack (tok :: toks)) :
    ∃ stack' text, advance stack tok = some stack' ∧ rewrite tok = some text ∧ Sound tok ∧
      Ready stack' toks := by
  obtain ⟨each, stack', step, follows⟩ := ready
  obtain ⟨⟨sound, writes⟩, each⟩ := List.forall_mem_cons.mp each
  obtain ⟨text, writes⟩ := Option.isSome_iff_exists.mp writes
  exact ⟨stack', text, step, writes, sound, each, follows⟩

theorem Ready.head_value {stack : List Frame} {toks : List Token} (ready : Ready stack toks)
    (within : ∀ tok, isEnd tok = true → advance stack tok = none) :
    ∀ tok ∈ toks.head?, isEnd tok = false := by
  intro tok member
  obtain ⟨rest, rfl⟩ := List.head?_eq_some_iff.mp member
  obtain ⟨stack', -, step, -⟩ := ready.cons
  by_contra closes
  rw [within tok (Bool.eq_true_of_not_eq_false closes)] at step
  cases step

theorem emit_value {stack : List Frame} (value : isEnd tok = false)
    (writes : rewrite tok = some text) :
    emit tok stack = some (separator stack ++ text, opened tok ++ count stack) := by
  rw [emit, if_neg (by simp [value]), writes, map_some]

theorem rewrite_tokenString {literal : GoString} (sound : Sound (.string literal)) :
    rewrite (.string literal) = some (appendString (tokenString (.string literal))) := by
  obtain ⟨s, read⟩ := Option.isSome_iff_exists.mp sound
  rw [rewrite_string read, tokenString, read]
  rfl

section

variable {α β : Type} {toks toks' : List Token} {stack stack' : List Frame} {out out' : GoString}
  {text : α → GoString} {text' : β → GoString} {decoded : Option (α × List Token)}
  {looped : Option (GoString × List Token)}

theorem Agrees.bind {more : α × List Token → Option (β × List Token)}
    (agrees : Agrees toks stack out text decoded looped)
    (next : ∀ a rest, Ready stack rest → rest.length < toks.length →
      Agrees toks' stack' out' text' (more (a, rest)) (resume stack rest (out ++ text a))) :
    Agrees toks' stack' out' text' (decoded.bind more) looped := by
  cases agrees with
  | fails => exact .fails
  | gives ready shorter => exact next _ _ ready shorter

theorem Agrees.map {f : α → β} (agrees : Agrees toks stack out text decoded looped)
    (same : ∀ a, out ++ text a = out' ++ text' (f a)) (longer : toks.length ≤ toks'.length) :
    Agrees toks' stack out' text' (decoded.map fun (a, rest) => (f a, rest)) looped := by
  cases agrees with
  | fails => exact .fails
  | gives ready shorter =>
    rw [same]
    exact .gives ready (Nat.lt_of_lt_of_le shorter longer)

end

theorem valueAgrees_succ (members : MembersAgree fuel) (elems : ElemsAgree fuel) :
    ValueAgrees (fuel + 1) := by
  intro toks stack out enough ready notName notEnd
  cases toks with
  | nil => exact .fails
  | cons tok toks =>
    obtain ⟨stack', text, step, writes, sound, later⟩ := ready.cons
    have value : isEnd tok = false := notEnd tok rfl
    obtain rfl : opened tok ++ count stack = stack' := advance_value value step
    rw [normalizeLoop_cons (emit_value value writes)]
    rw [List.length_cons] at enough
    -- A value that is one token.
    have single : ∀ v, appendValue v = text → opened tok = [] →
        Agrees (tok :: toks) (count stack) out (fun v => separator stack ++ appendValue v) (some (v, toks))
          (resume (opened tok ++ count stack) toks (out ++ (separator stack ++ text))) := by
      rintro v rfl flat
      rw [flat] at later ⊢
      exact .gives later (Nat.lt_succ_self _)
    cases tok with
    | objectEnd | arrayEnd => cases value
    | objectStart =>
      obtain rfl := Option.some.inj writes
      refine (members toks 0 (count stack) _ (by omega) later rfl).map ?_ (Nat.le_succ _)
      intro ms
      simp [appendValue]
    | arrayStart =>
      obtain rfl := Option.some.inj writes
      refine (elems toks 0 (count stack) _ (by omega) later).map ?_ (Nat.le_succ _)
      intro es
      simp [appendValue]
    | string literal =>
      rw [rewrite_tokenString sound] at writes
      exact single _ (Option.some.inj writes) rfl
    | number literal =>
      rw [rewrite] at writes
      exact single _ (by rw [appendValue, writes, Option.getD_some]) rfl
    | bool b => cases b <;> exact single _ (Option.some.inj writes) rfl
    | null => exact single _ (Option.some.inj writes) rfl

theorem decodeMembers_key (fuel : Nat) (literal : GoString) (toks : List Token) :
    decodeMembers (fuel + 1) (.string literal :: toks) =
      (decode fuel toks).bind fun (v, rest) => (decodeMembers fuel rest).map fun (members, rest) =>
        ((tokenString (.string literal), v) :: members, rest) := by
  simp only [decodeMembers, pure_def, bind_eq_bind, map_eq_bind]
  rfl

theorem decodeElems_value (fuel : Nat) (value : tok ≠ .arrayEnd) (toks : List Token) :
    decodeElems (fuel + 1) (tok :: toks) =
      (decode fuel (tok :: toks)).bind fun (v, rest) =>
        (decodeElems fuel rest).map fun (elems, rest) =>
        (v :: elems, rest) := by
  rw [decodeElems]
  · simp only [pure_def, bind_eq_bind, map_eq_bind]
    rfl
  · simp
  · rintro _ same
    exact value (List.cons.inj same).1

theorem separator_key {n : Nat} (even : n % 2 = 0) (outer : List Frame) :
    separator (⟨true, n⟩ :: outer) = if n = 0 then [] else lit "," := by
  cases n with
  | zero => rfl
  | succ n => simp [separator, even]

theorem separator_colon {n : Nat} (odd : n % 2 = 1) (outer : List Frame) :
    separator (⟨true, n⟩ :: outer) = lit ":" := by
  simp [separator, odd]

theorem separator_elem (n : Nat) (outer : List Frame) :
    separator (⟨false, n⟩ :: outer) = if n = 0 then [] else lit "," := by
  cases n <;> rfl

theorem membersAgree_succ (value : ValueAgrees fuel) (members : MembersAgree fuel) :
    MembersAgree (fuel + 1) := by
  intro toks n outer out enough ready even
  cases toks with
  | nil => exact .fails
  | cons tok toks =>
    obtain ⟨stack', text, step, writes, sound, later⟩ := ready.cons
    rw [List.length_cons] at enough
    cases tok with
    | objectEnd =>
      obtain rfl := advance_end rfl step
      exact .gives later (Nat.lt_succ_self _)
    | string literal =>
      obtain rfl := Option.some.inj step
      rw [decodeMembers_key, normalizeLoop_cons (emit_value rfl (rewrite_tokenString sound))]
      have odd : (n + 1) % 2 = 1 := by omega
      have notName : needsName (⟨true, n + 1⟩ :: outer) = false := by simp [needsName, odd]
      have notEnd : ∀ tok ∈ toks.head?, isEnd tok = false := by
        refine later.head_value ?_
        intro tok closes
        cases tok with
        | objectEnd => simp [advance, count, odd]
        | arrayEnd => rfl
        | _ => cases closes
      refine (value toks (⟨true, n + 1⟩ :: outer) _ (by omega) later notName notEnd).bind ?_
      intro v rest ready shorter
      refine (members rest (n + 2) outer _ (by omega) ready (by omega)).map ?_ (by simp; omega)
      intro ms
      simp [appendMembers, separator_key even, separator_colon odd]
    | arrayEnd => cases step
    | _ => simp [advance, push, needsName, even] at step

theorem elemsAgree_succ (value : ValueAgrees fuel) (elems : ElemsAgree fuel) :
    ElemsAgree (fuel + 1) := by
  intro toks n outer out enough ready
  cases toks with
  | nil => exact .fails
  | cons tok toks =>
    by_cases closes : tok = .arrayEnd
    · subst closes
      obtain ⟨stack', text, step, writes, sound, later⟩ := ready.cons
      obtain rfl := advance_end rfl step
      exact .gives later (Nat.lt_succ_self _)
    · rw [decodeElems_value fuel closes]
      have notEnd : ∀ next ∈ (tok :: toks).head?, isEnd next = false := by
        rintro _ ⟨⟩
        obtain ⟨stack', -, step, -⟩ := ready.cons
        cases tok with
        | objectEnd => cases step
        | arrayEnd => exact absurd rfl closes
        | _ => rfl
      refine (value (tok :: toks) (⟨false, n⟩ :: outer) out (by omega) ready rfl notEnd).bind ?_
      intro v rest ready shorter
      refine (elems rest (n + 1) outer _ (by omega) ready).map ?_ (by omega)
      intro es
      simp [appendElems, separator_elem]

theorem agree (fuel : Nat) : ValueAgrees fuel ∧ MembersAgree fuel ∧ ElemsAgree fuel := by
  induction fuel with
  | zero => exact ⟨fun _ _ _ enough => by omega, fun _ _ _ _ enough => by omega, fun _ _ _ _ enough => by omega⟩
  | succ fuel ih =>
    obtain ⟨value, members, elems⟩ := ih
    exact ⟨valueAgrees_succ members elems, membersAgree_succ value members,
      elemsAgree_succ value elems⟩

theorem loop_decode (s : GoString) (accepts : ∀ tok ∈ (newDecoder s).tokens, (rewrite tok).isSome) :
    normalizeLoop (newDecoder s).tokens [] [] =
      (decode (2 * (newDecoder s).tokens.length + 1) (newDecoder s).tokens).map fun (v, rest) =>
        (marshal v, rest) := by
  have ready : Ready [] (newDecoder s).tokens :=
    ⟨fun tok member => ⟨tokens_sound s tok member, accepts tok member⟩, tokens_follow s⟩
  have notEnd : ∀ tok ∈ (newDecoder s).tokens.head?, isEnd tok = false := by
    refine ready.head_value ?_
    intro tok closes
    cases tok <;> first | rfl | cases closes
  have agrees := (agree _).1 (newDecoder s).tokens [] [] (Nat.le_refl _) ready rfl notEnd
  generalize decode _ _ = decoded at agrees ⊢
  generalize normalizeLoop _ _ _ = looped at agrees ⊢
  cases agrees with
  | _ => rfl

def InRange (s : GoString) : Prop :=
  ∀ literal, .number literal ∈ (newDecoder s).tokens → containsAny literal (lit ".eE") = true →
    (appendNumber literal).isSome

theorem rewrite_isSome_of_inRange (inRange : InRange s) :
    ∀ tok ∈ (newDecoder s).tokens, (rewrite tok).isSome := by
  intro tok member
  have sound := tokens_sound s tok member
  cases tok with
  | string literal => rw [rewrite_tokenString sound, isSome_some]
  | number literal =>
    by_cases double : containsAny literal (lit ".eE") = true
    · exact inRange literal member double
    · rw [rewrite, appendNumber, if_pos (by simp [double]), isSome_some]
  | bool b => cases b <;> rfl
  | _ => rfl

theorem normalize_eq_some {out : GoString} :
    Chefjson.normalize s = some out ↔ normalizeLoop (newDecoder s).tokens [] [] = some (out, []) ∧
      (newDecoder s).eof = true := by
  unfold Chefjson.normalize
  constructor
  · intro h
    split at h
    · next written =>
      split_ifs at h with eof
      cases h
      exact ⟨written, eof⟩
    · cases h
  · rintro ⟨written, eof⟩
    rw [written]
    exact if_pos eof

theorem parse_eq_some {v : Value} : parse s = some v ↔
      decode (2 * (newDecoder s).tokens.length + 1) (newDecoder s).tokens = some (v, []) ∧
        (newDecoder s).eof = true := by
  unfold parse
  constructor
  · intro h
    split at h
    · next read =>
      split_ifs at h with eof
      cases h
      exact ⟨read, eof⟩
    · cases h
  · rintro ⟨read, eof⟩
    rw [read]
    exact if_pos eof

theorem normalize_fixed {out : GoString} (h : Chefjson.normalize s = some out) :
    Chefjson.normalize out = some out := by
  obtain ⟨written, -⟩ := normalize_eq_some.mp h
  obtain ⟨read, text, -, rfl, -, rereads⟩ :=
    rereads_of_normalizeLoop (tokens_sound s) (tokens_follow s) written
  rw [normalize_eq_some, newDecoder, rereads.lexed]
  exact ⟨rereads.rewritten [], rfl⟩

theorem inRange_of_normalize {out : GoString} (h : Chefjson.normalize s = some out) :
    InRange s := by
  obtain ⟨written, -⟩ := normalize_eq_some.mp h
  obtain ⟨read, text, same, -, accepted, -⟩ :=
    rereads_of_normalizeLoop (tokens_sound s) (tokens_follow s) written
  rw [List.append_nil] at same
  intro literal member _
  exact accepted (.number literal) (same ▸ member)

theorem normalize_iff_marshal {out : GoString} :
    Chefjson.normalize s = some out ↔ ∃ v, parse s = some v ∧ InRange s ∧ out = marshal v := by
  constructor
  · intro h
    have inRange := inRange_of_normalize h
    obtain ⟨written, eof⟩ := normalize_eq_some.mp h
    rw [loop_decode s (rewrite_isSome_of_inRange inRange)] at written
    obtain ⟨⟨v, rest⟩, read, same⟩ := Option.map_eq_some_iff.mp written
    obtain ⟨rfl, rfl⟩ := Prod.mk.inj same
    exact ⟨v, parse_eq_some.mpr ⟨read, eof⟩, inRange, rfl⟩
  · rintro ⟨v, parsed, inRange, rfl⟩
    obtain ⟨read, eof⟩ := parse_eq_some.mp parsed
    rw [normalize_eq_some, loop_decode s (rewrite_isSome_of_inRange inRange), read]
    exact ⟨rfl, eof⟩

/-- What is stored is what marshalling the parsed tree gives, whenever every literal with a fraction
or an exponent is within double range, and it is stored again as it is. -/
theorem normalize_normal_form (s : GoString) :
    (∀ out, Chefjson.normalize s = some out ↔ ∃ v, parse s = some v ∧ InRange s ∧ out = marshal v) ∧
      (Chefjson.normalize s).bind Chefjson.normalize = Chefjson.normalize s := by
  refine ⟨fun out => normalize_iff_marshal, ?_⟩
  cases h : Chefjson.normalize s with
  | none => rfl
  | some out => exact normalize_fixed h

/-! ## The first member of a name -/

open Proof.Decoding

variable {fuel : Nat} {tok : Token} {toks mid rest : List Token} {v : Value} {name : GoString} {members : Members}
  {elems : List Value} {frames frames' : List Frame} {key : GoString}

theorem holds_get (distinct : (members.map Prod.fst).Nodup) (name : GoString) :
    Holds members name (get members name) := by
  induction members with
  | nil => simp [Holds, Json.get]
  | cons member rest ih =>
    obtain ⟨fresh, others⟩ := List.nodup_cons.mp distinct
    intro v
    rw [List.mem_cons, ih others v, Json.get, Json.get, List.lookup_cons]
    by_cases same : name = member.1
    · subst same
      have absent : rest.lookup member.1 = none := List.lookup_eq_none_iff.mpr fun other mem => by
        simpa using fun same => fresh (List.mem_map.mpr ⟨other, mem, same.symm⟩)
      simp [absent, Prod.ext_iff, eq_comm]
    · have differs : (name == member.1) = false := by simpa using same
      simp [same, differs, Prod.ext_iff]

def scalarValue : Token → Option Value
  | .null => some .null
  | .bool b => some (.bool b)
  | .number literal => some (.number literal)
  | .string literal => some (.string (tokenString (.string literal)))
  | _ => none

structure Reading (V : Nat → List Token → Value → List Token → Prop)
    (M : Nat → List Token → Members → List Token → Prop)
    (E : Nat → List Token → List Value → List Token → Prop) : Prop where
  scalar : ∀ fuel tok v rest, scalarValue tok = some v → V (fuel + 1) (tok :: rest) v rest
  object : ∀ fuel toks members rest, M fuel toks members rest → V (fuel + 1) (.objectStart :: toks) (.object members) rest
  array : ∀ fuel toks elems rest, E fuel toks elems rest → V (fuel + 1) (.arrayStart :: toks) (.array elems) rest
  objectEnd : ∀ fuel rest, M (fuel + 1) (.objectEnd :: rest) [] rest
  member : ∀ fuel key toks v mid members rest, V fuel toks v mid → M fuel mid members rest →
    M (fuel + 1) (.string key :: toks) ((tokenString (.string key), v) :: members) rest
  arrayEnd : ∀ fuel rest, E (fuel + 1) (.arrayEnd :: rest) [] rest
  elem : ∀ fuel tok toks v mid elems rest, tok ≠ .arrayEnd → V fuel (tok :: toks) v mid → E fuel mid elems rest →
    E (fuel + 1) (tok :: toks) (v :: elems) rest

theorem advance_scalar (isScalar : scalarValue tok = some v)
    (step : advance frames tok = some frames') :
    frames' = count frames := by
  cases tok with
  | objectStart | arrayStart | objectEnd | arrayEnd => cases isScalar
  | string literal => exact (Option.some.inj step).symm
  | _ =>
    rw [advance] at step
    split_ifs at step
    exact (Option.some.inj step).symm

theorem push_eq_some {object : Bool} (step : push object frames = some frames') :
    frames' = ⟨object, 0⟩ :: count frames := by
  unfold push at step
  split_ifs at step
  exact (Option.some.inj step).symm

theorem advance_name {n : Nat} {outer : List Frame} (even : n % 2 = 0)
    (step : advance (⟨true, n⟩ :: outer) tok = some frames') :
    tok = .objectEnd ∧ frames' = outer ∨ ∃ literal, tok = .string literal ∧
      frames' = ⟨true, n + 1⟩ :: outer := by
  cases tok with
  | objectEnd => simpa [advance, even, eq_comm] using step
  | string literal => exact .inr ⟨literal, rfl, (Option.some.inj step).symm⟩
  | _ => simp [advance, push, needsName, even] at step

section Reading

variable {V : Nat → List Token → Value → List Token → Prop} {M : Nat → List Token → Members → List Token → Prop}
  {E : Nat → List Token → List Value → List Token → Prop}

def ReadsValue (V : Nat → List Token → Value → List Token → Prop) (fuel : Nat) : Prop :=
  ∀ toks v rest frames, decode fuel toks = some (v, rest) → Follows advance frames toks →
    V fuel toks v rest ∧ Follows advance (count frames) rest

def ReadsMembers (M : Nat → List Token → Members → List Token → Prop) (fuel : Nat) : Prop :=
  ∀ toks members rest n outer, decodeMembers fuel toks = some (members, rest) → n % 2 = 0 →
    Follows advance (⟨true, n⟩ :: outer) toks → M fuel toks members rest ∧ Follows advance outer rest

def ReadsElems (E : Nat → List Token → List Value → List Token → Prop) (fuel : Nat) : Prop :=
  ∀ toks elems rest n outer, decodeElems fuel toks = some (elems, rest) → Follows advance (⟨false, n⟩ :: outer) toks →
    E fuel toks elems rest ∧ Follows advance outer rest

variable (reading : Reading V M E)
include reading

theorem Reading.value_succ (members : ReadsMembers M fuel) (elems : ReadsElems E fuel) :
    ReadsValue V (fuel + 1) := by
  intro toks v rest frames read follows
  cases toks with
  | nil => rw [decode] at read; cases read
  | cons tok toks =>
    obtain ⟨frames', step, follows⟩ := follows
    have leaf (v : Value) (isScalar : scalarValue tok = some v) :
        V (fuel + 1) (tok :: toks) v toks ∧ Follows advance (count frames) toks :=
      ⟨reading.scalar _ _ _ _ isScalar, advance_scalar isScalar step ▸ follows⟩
    cases tok with
    | objectStart =>
      obtain ⟨⟨_, _⟩, inner, same⟩ := Option.map_eq_some_iff.mp read
      cases same
      rw [push_eq_some step] at follows
      exact (members _ _ _ 0 _ inner rfl follows).imp_left (reading.object _ _ _ _)
    | arrayStart =>
      obtain ⟨⟨_, _⟩, inner, same⟩ := Option.map_eq_some_iff.mp read
      cases same
      rw [push_eq_some step] at follows
      exact (elems _ _ _ 0 _ inner follows).imp_left (reading.array _ _ _ _)
    | objectEnd | arrayEnd => cases read
    | _ =>
      cases read
      exact leaf _ rfl

theorem Reading.members_succ (value : ReadsValue V fuel) (more : ReadsMembers M fuel) :
    ReadsMembers M (fuel + 1) := by
  intro toks members rest n outer read even follows
  cases toks with
  | nil => rw [decodeMembers] at read; cases read
  | cons key toks =>
    obtain ⟨frames', step, follows⟩ := follows
    obtain ⟨rfl, rfl⟩ | ⟨literal, rfl, rfl⟩ := advance_name even step
    · cases read
      exact ⟨reading.objectEnd _ _, follows⟩
    · obtain ⟨⟨v, mid⟩, first, read⟩ := Option.bind_eq_some_iff.mp read
      obtain ⟨⟨_, _⟩, others, same⟩ := Option.bind_eq_some_iff.mp read
      cases same
      obtain ⟨first, follows⟩ := value _ _ _ _ first follows
      obtain ⟨others, follows⟩ := more _ _ _ (n + 1 + 1) outer others (by omega) follows
      exact ⟨reading.member _ _ _ _ _ _ _ first others, follows⟩

theorem Reading.elems_succ (value : ReadsValue V fuel) (more : ReadsElems E fuel) :
    ReadsElems E (fuel + 1) := by
  intro toks elems rest n outer read follows
  cases toks with
  | nil => rw [decodeElems] at read; cases read
  | cons tok toks =>
    by_cases ends : tok = .arrayEnd
    · subst ends
      cases read
      obtain ⟨_, step, follows⟩ := follows
      cases step
      exact ⟨reading.arrayEnd _ _, follows⟩
    · rw [decodeElems] at read
      · obtain ⟨⟨v, mid⟩, first, read⟩ := Option.bind_eq_some_iff.mp read
        obtain ⟨⟨_, _⟩, others, same⟩ := Option.bind_eq_some_iff.mp read
        cases same
        obtain ⟨first, follows⟩ := value _ _ _ _ first follows
        obtain ⟨others, follows⟩ := more _ _ _ (n + 1) outer others follows
        exact ⟨reading.elem _ _ _ _ _ _ _ ends first others, follows⟩
      · simp
      · rintro _ same
        exact ends (List.cons.inj same).1

theorem Reading.all (fuel : Nat) : ReadsValue V fuel ∧ ReadsMembers M fuel ∧ ReadsElems E fuel := by
  induction fuel with
  | zero => exact ⟨nofun, nofun, nofun⟩
  | succ fuel ih =>
    obtain ⟨value, members, elems⟩ := ih
    exact ⟨reading.value_succ members elems, reading.members_succ value members,
      reading.elems_succ value elems⟩

theorem Reading.parse {s : GoString} (parsed : Chefjson.parse s = some v) :
    V (2 * (newDecoder s).tokens.length + 1) (newDecoder s).tokens v [] :=
  ((reading.all _).1 _ _ _ _ (parse_eq_some.mp parsed).1 (tokens_follow s)).1

end Reading

def SkipsValue (toks rest : List Token) : Prop :=
  skipTokens 0 toks = some rest ∧ ∀ depth, skipTokens (depth + 1) toks = skipTokens (depth + 1) rest

def SkipsRest (toks rest : List Token) : Prop :=
  ∀ depth, skipTokens (depth + 1) toks = if depth = 0 then some rest else skipTokens depth rest

theorem reading_skip :
    Reading (fun _ toks _ rest => SkipsValue toks rest) (fun _ toks _ rest => SkipsRest toks rest)
    fun _ toks _ rest => SkipsRest toks rest where
  scalar fuel tok v rest isScalar := by
    cases tok with
    | objectStart | arrayStart | objectEnd | arrayEnd => cases isScalar
    | _ => exact ⟨rfl, fun _ => rfl⟩
  object fuel toks members rest inner := ⟨inner 0, fun depth => inner (depth + 1)⟩
  array fuel toks elems rest inner := ⟨inner 0, fun depth => inner (depth + 1)⟩
  objectEnd fuel rest depth := rfl
  member fuel key toks v mid members rest first others depth := (first.2 depth).trans (others depth)
  arrayEnd fuel rest depth := rfl
  elem fuel tok toks v mid elems rest _ first others depth := (first.2 depth).trans (others depth)

def ReadsMap (fuel : Nat) (toks : List Token) (members : Members) (rest : List Token) : Prop :=
  ∀ (m : Object) (seen : List GoString), (∀ name, name ∈ m ↔ name ∈ seen) →
    decodeMap fuel m toks = some (canonicalMembers m (firstOf seen members), rest)

theorem readsMap_member (skips : SkipsValue toks mid)
    (first : decodeFirst fuel toks = some (canonical (firstMembers v), mid))
    (others : ReadsMap fuel mid members rest) :
    ReadsMap (fuel + 1) (.string key :: toks) ((tokenString (.string key), v) :: members) rest := by
  intro m seen same
  rw [decodeMap, firstOf]
  · by_cases repeated : tokenString (.string key) ∈ seen
    · rw [if_pos ((same _).mpr repeated), if_pos repeated, skipValue, skips.1, bind_some,
        others m seen same]
    · rw [if_neg ((same _).not.mpr repeated), if_neg repeated, first, bind_some, canonicalMembers]
      refine others _ _ fun name => ?_
      rw [Std.ExtTreeMap.mem_insert, List.mem_cons, same name, Std.LawfulEqCmp.compare_eq_iff_eq,
        eq_comm]
  · simp

theorem reading_first : Reading
    (fun fuel toks v rest => SkipsValue toks rest ∧ decodeFirst fuel toks = some (canonical (firstMembers v), rest))
    (fun fuel toks members rest => SkipsRest toks rest ∧ ReadsMap fuel toks members rest)
    fun fuel toks elems rest =>
      SkipsRest toks rest ∧ decodeFirstElems fuel toks = some (canonicalElems (firstElems elems), rest) where
  scalar fuel tok v rest isScalar := by
    refine ⟨reading_skip.scalar fuel tok v rest isScalar, ?_⟩
    cases tok with
    | objectStart | arrayStart | objectEnd | arrayEnd => cases isScalar
    | _ =>
      cases isScalar
      simp [decodeFirst, firstMembers, canonical]
  object fuel toks members rest inner := by
    refine ⟨reading_skip.object fuel toks members rest inner.1, ?_⟩
    rw [decodeFirst, inner.2 ∅ [] (by simp), firstMembers, canonical]
    rfl
  array fuel toks elems rest inner := by
    refine ⟨reading_skip.array fuel toks elems rest inner.1, ?_⟩
    rw [decodeFirst, inner.2, firstMembers, canonical]
    rfl
  objectEnd fuel rest := by
    refine ⟨reading_skip.objectEnd fuel rest, fun m seen _ => ?_⟩
    rw [decodeMap, firstOf, canonicalMembers]
  member fuel key toks v mid members rest first others :=
    ⟨reading_skip.member fuel key toks v mid members rest first.1 others.1, readsMap_member first.1 first.2 others.2⟩
  arrayEnd fuel rest := by
    refine ⟨reading_skip.arrayEnd fuel rest, ?_⟩
    rw [decodeFirstElems, firstElems, canonicalElems]
  elem fuel tok toks v mid elems rest notEnd first others := by
    refine ⟨reading_skip.elem fuel tok toks v mid elems rest notEnd first.1 others.1, ?_⟩
    rw [decodeFirstElems]
    · simp only [first.2, others.2, firstElems, canonicalElems, bind_eq_bind, bind_some, pure_def]
    · simp
    · rintro _ same
      exact notEnd (List.cons.inj same).1

def Clashes (names : List GoString) (members : Members) : Bool :=
  members.any (fun member => member.1 ∈ names) || membersRepeat members

theorem clashes_cons (names : List GoString) (fresh : name ∉ names) :
    Clashes names ((name, v) :: members) =
      (Json.hasRepeatedNames v || Clashes (name :: names) members) := by
  rw [Bool.eq_iff_iff]
  simp only [Clashes, membersRepeat, List.any_cons, fresh, decide_false, Bool.false_or,
    Bool.or_eq_true, List.any_eq_true,
    decide_eq_true_eq, List.contains_iff_mem, List.mem_map, List.mem_cons]
  constructor
  · rintro (⟨member, mem, seen⟩ | (⟨member, mem, rfl⟩ | inside) | later)
    · exact .inr (.inl ⟨member, mem, .inr seen⟩)
    · exact .inr (.inl ⟨member, mem, .inl rfl⟩)
    · exact .inl inside
    · exact .inr (.inr later)
  · rintro (inside | ⟨member, mem, same | seen⟩ | later)
    · exact .inr (.inl (.inr inside))
    · exact .inr (.inl (.inl ⟨member, mem, same⟩))
    · exact .inl ⟨member, mem, seen⟩
    · exact .inr (.inr later)

theorem reading_unique : Reading
    (fun fuel toks v rest => readUnique fuel toks = if Json.hasRepeatedNames v then none else some rest)
    (fun fuel toks members rest => ∀ names,
      readUniqueMembers fuel names toks = if Clashes names members then none else some rest)
    fun fuel toks elems rest =>
      readUniqueElems fuel toks = if elemsRepeat elems then none else some rest where
  scalar fuel tok v rest isScalar := by
    cases tok with
    | objectStart | arrayStart | objectEnd | arrayEnd => cases isScalar
    | _ =>
      cases isScalar
      simp [readUnique, Json.hasRepeatedNames]
  object fuel toks members rest inner := by
    rw [readUnique, inner [], Json.hasRepeatedNames]
    simp [Clashes]
  array fuel toks elems rest inner := by rw [readUnique, inner, Json.hasRepeatedNames]
  objectEnd fuel rest names := by
    rw [readUniqueMembers]
    rfl
  member fuel key toks v mid members rest first others names := by
    rw [readUniqueMembers, first]
    · by_cases repeated : tokenString (.string key) ∈ names
      · simp [repeated, Clashes]
      · rw [if_neg repeated, clashes_cons names repeated]
        cases Json.hasRepeatedNames v with
        | true => rfl
        | false => exact others _
    · simp
  arrayEnd fuel rest := by
    rw [readUniqueElems]
    rfl
  elem fuel tok toks v mid elems rest notEnd first others := by
    rw [readUniqueElems, first, elemsRepeat]
    · cases Json.hasRepeatedNames v with
      | true => rfl
      | false => exact others
    · simp
    · rintro _ same
      exact notEnd (List.cons.inj same).1

theorem firstOf_name_not_mem {seen : List GoString} (repeated : name ∈ seen) (members : Members) :
    name ∉ (firstOf seen members).map Prod.fst := by
  induction members generalizing seen with
  | nil => simp [firstOf]
  | cons member rest ih =>
    rw [firstOf]
    split_ifs with skipped
    · exact ih repeated
    · rw [List.map_cons, List.mem_cons, not_or]
      exact ⟨fun same => skipped (same ▸ repeated), ih (List.mem_cons_of_mem _ repeated)⟩

theorem nodup_firstOf (seen : List GoString) (members : Members) :
    ((firstOf seen members).map Prod.fst).Nodup := by
  induction members generalizing seen with
  | nil => simp [firstOf]
  | cons member rest ih =>
    rw [firstOf]
    split_ifs
    · exact ih seen
    · exact List.nodup_cons.mpr ⟨firstOf_name_not_mem (List.mem_cons_self ..) rest, ih _⟩

theorem get_firstOf {seen : List GoString} (fresh : name ∉ seen) (members : Members) :
    get (firstOf seen members) name = (get members name).map firstMembers := by
  induction members generalizing seen with
  | nil => simp [firstOf, Json.get]
  | cons member rest ih =>
    rw [firstOf, Json.get, Json.get, List.lookup_cons]
    by_cases same : name = member.1
    · subst same
      simp [fresh]
    · have differs : (name == member.1) = false := by simpa using same
      rw [differs]
      split_ifs
      · exact ih fresh
      · rw [List.lookup_cons, differs]
        exact ih (by simp [same, fresh])

theorem length_firstOf_le (seen : List GoString) (members : Members) :
    (firstOf seen members).length ≤ members.length := by
  induction members generalizing seen with
  | nil => simp [firstOf]
  | cons member rest ih =>
    rw [firstOf]
    split_ifs
    · exact (ih seen).trans (by simp)
    · simpa using ih _

mutual

theorem firstMembers_eq_self : (v : Value) → (firstMembers v = v ↔ Json.hasRepeatedNames v = false)
  | .null | .bool _ | .string _ | .number _ => by simp [firstMembers, Json.hasRepeatedNames]
  | .array elems => by
    rw [firstMembers, Json.hasRepeatedNames, ← firstElems_eq_self elems, Value.array.injEq]
  | .object members => by
    rw [firstMembers, Json.hasRepeatedNames, Value.object.injEq, firstOf_eq_self members []]
    simp [Clashes]

theorem firstElems_eq_self :
    (elems : List Value) → (firstElems elems = elems ↔ elemsRepeat elems = false)
  | [] => by simp [firstElems, elemsRepeat]
  | v :: rest => by
    rw [firstElems, elemsRepeat, List.cons.injEq, firstMembers_eq_self v, firstElems_eq_self rest,
      Bool.or_eq_false_iff]

theorem firstOf_eq_self : (members : Members) → (seen : List GoString) →
    (firstOf seen members = members ↔ Clashes seen members = false)
  | [], seen => by simp [firstOf, Clashes, membersRepeat]
  | (name, v) :: rest, seen => by
    rw [firstOf]
    by_cases repeated : name ∈ seen
    · have shorter := length_firstOf_le seen rest
      have differ : firstOf seen rest ≠ (name, v) :: rest := fun same => by simp [same] at shorter
      simp [repeated, Clashes, differ]
    · rw [if_neg repeated, clashes_cons seen repeated, List.cons.injEq, Prod.mk.injEq,
        firstMembers_eq_self v, firstOf_eq_self rest (name :: seen), Bool.or_eq_false_iff]
      simp

end

def stringValue : Value → Option GoString
  | .string s => some s
  | _ => none

def headString : List Token → Option GoString
  | .string literal :: _ => some (tokenString (.string literal))
  | _ => none

theorem stringLoop_key (name key : GoString) (fuel : Nat) (toks : List Token) :
    stringLoop name (fuel + 1) (.string key :: toks) = if tokenString (.string key) ≠ name then
      (skipValue toks).bind (stringLoop name fuel) else headString toks := by
  cases toks with
  | nil => rfl
  | cons tok toks => cases tok <;> rfl

def FindsString (toks : List Token) (members : Members) : Prop :=
  ∀ name fuel, members.length ≤ fuel → stringLoop name fuel toks = (get members name).bind stringValue

theorem findsString_member (skips : SkipsValue toks mid) (head : headString toks = stringValue v)
    (others : FindsString mid members) :
    FindsString (.string key :: toks) ((tokenString (.string key), v) :: members) := by
  intro name fuel enough
  cases fuel with
  | zero => simp at enough
  | succ fuel =>
    rw [stringLoop_key, Json.get, List.lookup_cons]
    by_cases same : tokenString (.string key) = name
    · rw [if_neg (not_not.mpr same), same, beq_self_eq_true]
      exact head
    · have differs : (name == tokenString (.string key)) = false := by simpa using Ne.symm same
      rw [if_pos same, differs, skipValue, skips.1, bind_some]
      exact others name fuel (Nat.le_of_succ_le_succ enough)

theorem reading_string : Reading
    (fun _ toks v rest => SkipsValue toks rest ∧ headString toks = stringValue v ∧ rest.length < toks.length ∧
      ∀ members, v = .object members → ∃ inner, toks = .objectStart :: inner ∧ FindsString inner members ∧
        members.length ≤ inner.length)
    (fun _ toks members rest => SkipsRest toks rest ∧ members.length + rest.length < toks.length ∧ FindsString toks members)
    fun _ toks _ rest => SkipsRest toks rest ∧ rest.length < toks.length where
  scalar fuel tok v rest isScalar := by
    refine ⟨reading_skip.scalar fuel tok v rest isScalar, ?_, by simp, ?_⟩
    · cases tok with
      | objectStart | arrayStart | objectEnd | arrayEnd => cases isScalar
      | _ =>
        cases isScalar
        rfl
    · rintro members rfl
      cases tok <;> simp [scalarValue] at isScalar
  object fuel toks members rest inner := by
    refine ⟨reading_skip.object fuel toks members rest inner.1, rfl, ?_, ?_⟩
    · have := inner.2.1
      simp only [List.length_cons]
      omega
    · rintro _ same
      cases same
      exact ⟨toks, rfl, inner.2.2, by omega⟩
  array fuel toks elems rest inner := by
    refine ⟨reading_skip.array fuel toks elems rest inner.1, rfl, ?_, nofun⟩
    have := inner.2
    simp only [List.length_cons]
    omega
  objectEnd fuel rest := ⟨reading_skip.objectEnd fuel rest, by simp, fun name fuel _ => by cases fuel <;> rfl⟩
  member fuel key toks v mid members rest first others := by
    refine ⟨reading_skip.member fuel key toks v mid members rest first.1 others.1, ?_,
      findsString_member first.1 first.2.1 others.2.2⟩
    have := first.2.2.1
    have := others.2.1
    simp only [List.length_cons]
    omega
  arrayEnd fuel rest := ⟨reading_skip.arrayEnd fuel rest, by simp⟩
  elem fuel tok toks v mid elems rest notEnd first others :=
    ⟨reading_skip.elem fuel tok toks v mid elems rest notEnd first.1 others.1, others.2.trans first.2.2.1⟩

/-- The readers of a document agree with its tree. -/
theorem first_member_readers_agree {s : GoString}
    (valid : Chefjson.parse s = some (.object members)) :
    (Chefjson.decodeObject s).map (fun m => Value.object m.toList) = some (canonical (firstMembers (.object members))) ∧
    (Chefjson.hasRepeatedNames s = false ↔ firstMembers (.object members) = .object members) ∧
    ∀ name, Chefjson.string s name = (get members name).bind stringValue := by
  have eof := (parse_eq_some.mp valid).2
  refine ⟨?_, ?_, fun name => ?_⟩
  · have read := (reading_first.parse valid).2
    rw [Chefjson.decodeObject, read]
    simp only [eof, if_true, firstMembers, canonical, asMap, map_some]
    rw [canonicalMembers_toList]
    exact forall_canonicalMembers (by simp) (canonical_members _)
  · rw [firstMembers_eq_self, Chefjson.hasRepeatedNames, isValidUnique, reading_unique.parse valid]
    cases Json.hasRepeatedNames (.object members) with
    | true => simp
    | false => simp [eof]
  · obtain ⟨-, -, -, found⟩ := reading_string.parse valid
    obtain ⟨inner, starts, finds, enough⟩ := found members rfl
    rw [Chefjson.string, starts]
    exact finds name _ enough

def isObject : Value → Bool
  | .object _ => true
  | _ => false

def repeating : GoString := lit "\x7b\"a\":\x7b\"b\":1,\"b\":2\x7d,\"a\":\"c\"\x7d"

theorem repeating_readers_agree : ∃ members, Chefjson.parse repeating = some (.object members) ∧
    (Chefjson.decodeObject repeating).map (fun m => Value.object m.toList) = some (canonical (firstMembers (.object members))) ∧
    Chefjson.string repeating (lit "a") = (get members (lit "a")).bind stringValue := by
  have object : (Chefjson.parse repeating).any isObject := by decide +kernel
  cases parsed : Chefjson.parse repeating with
  | none => simp [parsed] at object
  | some v =>
    rw [parsed, Option.any_some] at object
    cases v with
    | object members =>
      have agree := first_member_readers_agree parsed
      exact ⟨members, rfl, agree.1, agree.2.2 (lit "a")⟩
    | _ => cases object

end CincServer.Proof.Json
