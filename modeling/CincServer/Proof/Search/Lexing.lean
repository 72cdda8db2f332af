import CincServer.Proof.Runes
import CincServer.Search.Query

/-!
# The lexer, piece by piece
-/

namespace CincServer.Proof.Search
open CincServer.Search Go
open List (append_assoc cons_append reverse_append)

section

section

variable [Unicode] {raw text glob lo : GoString} {b : UInt8}

def quoteChar (q : GoString) : GoString :=
  (if q = lit "*" ∨ q = lit "?" ∨ q = [backslash] then [backslash] else []) ++ q

def escapeEach (s : GoString) : GoString :=
  (segments s).flatMap fun segment => backslash :: segment.2

def quoteWildcards (s : GoString) : GoString :=
  (segments s).flatMap fun segment => quoteChar segment.2

def Scans (raw text glob : GoString) : Prop :=
  ∀ rest w, scanWord 0 rest = .ok w →
    scanWord 0 (raw ++ rest) = .ok ⟨text ++ w.text, glob ++ w.glob, raw.length + w.width⟩

section Scanning

omit [Unicode]

theorem scans_nil : Scans [] [] [] := by
  intro rest w scanned
  simpa using scanned

theorem Scans.append {raw' text' glob' : GoString} (first : Scans raw text glob)
    (second : Scans raw' text' glob') : Scans (raw ++ raw') (text ++ text') (glob ++ glob') := by
  intro rest w scanned
  rw [append_assoc, first _ _ (second rest w scanned)]
  simp [Nat.add_assoc]

theorem scans_plain (inside : b ∉ delimiters) (plain : b ≠ backslash) : Scans [b] [b] [b] := by
  intro rest w scanned
  rw [List.singleton_append, scanWord, if_neg inside, if_pos plain, scanned]
  simp [Except.map, Word.prepend, Nat.add_comm]

theorem scanWord_skip {rest : GoString} {w : Word} (scanned : scanWord 0 rest = .ok w)
    (front : GoString) :
    scanWord front.length (front ++ rest) = .ok ⟨w.text, w.glob, front.length + w.width⟩ := by
  induction front with
  | nil => simpa using scanned
  | cons b front ih =>
    rw [cons_append, List.length_cons, scanWord, ih]
    simp [Except.map, Word.prepend, Nat.add_right_comm]

theorem scans_escaped {q : GoString} (seq : Sequence q) :
    Scans (backslash :: q) q (quoteChar q) := by
  intro rest w scanned
  obtain ⟨r, decodes, wide, -⟩ := decodeRune_append seq rest
  have more : q ++ rest ≠ [] := by
    intro none
    exact wide (by simp [(List.append_eq_nil_iff.mp none).1])
  rw [cons_append, scanWord, if_neg (by decide), if_neg (by simp), if_neg more]
  simp only [decodes, List.take_left, scanWord_skip scanned, Except.map, Word.prepend, quoteChar]
  simp [Nat.add_right_comm]

theorem scans_escapeEach {s : GoString} (valid : validString s) :
    Scans (escapeEach s) s (quoteWildcards s) := by
  refine validString_induction
    (motive := fun s => Scans (escapeEach s) s (quoteWildcards s)) scans_nil ?_ valid
  intro q rest seq _ ih
  simp only [escapeEach, quoteWildcards, segments_append seq, List.flatMap_cons]
  exact (scans_escaped seq).append ih

end Scanning

def Boundary (rest : GoString) : Prop := ∀ b ∈ rest.head?, b ∈ delimiters

def Anything (_ : GoString) : Prop := True

def Lexes (follow : GoString → Prop) (s : GoString) (toks : List Token) : Prop :=
  ∀ rest more, follow rest → lexFrom 0 rest = .ok more → lexFrom 0 (s ++ rest) = .ok (toks ++ more)

section Appending

variable {follow follow' : GoString → Prop} {s s' : GoString} {toks toks' : List Token}

theorem Lexes.append (first : Lexes follow s toks) (second : Lexes follow' s' toks')
    (follows : ∀ rest, follow' rest → follow (s' ++ rest)) : Lexes follow' (s ++ s')
    (toks ++ toks') := by
  intro rest more allowed lexed
  rw [append_assoc, append_assoc]
  exact first _ _ (follows rest allowed) (second rest more allowed lexed)

theorem Lexes.before (first : Lexes Anything s toks) (second : Lexes follow s' toks') :
    Lexes follow (s ++ s') (toks ++ toks') :=
  first.append second fun _ _ => trivial

omit [Unicode] in
theorem Boundary.append (delimits : b ∈ delimiters) (rest : GoString) : Boundary (b :: rest) := by
  intro c head
  obtain rfl : b = c := by simpa using head
  exact delimits

theorem Lexes.ended (first : Lexes Boundary s toks) (second : Lexes follow (b :: s') toks')
    (delimits : b ∈ delimiters) : Lexes follow (s ++ b :: s') (toks ++ toks') :=
  first.append second fun rest _ => Boundary.append delimits (s' ++ rest)

theorem Lexes.bounded (lexed : Lexes Anything s toks) : Lexes Boundary s toks :=
  fun rest more _ => lexed rest more trivial

theorem lex_of_lexes (lexed : Lexes Boundary s toks) : lex s = .ok (toks ++ [.eof]) := by
  have whole := lexed [] [.eof] (by simp [Boundary]) rfl
  rwa [List.append_nil] at whole

end Appending

theorem lexFrom_skip (front rest : GoString) :
    lexFrom front.length (front ++ rest) = lexFrom 0 rest := by
  induction front with
  | nil => rfl
  | cons b front ih => exact ih

theorem lexFrom_token {b : UInt8} {chunk rest : GoString} {token : Option Token} {more : List Token}
    (scanned : scanToken b (chunk ++ rest) = .ok (token, chunk.length + 1))
    (lexed : lexFrom 0 rest = .ok more) :
    lexFrom 0 (b :: chunk ++ rest) = .ok (token.toList ++ more) := by
  rw [cons_append, lexFrom, scanned]
  dsimp only
  rw [Nat.add_sub_cancel, lexFrom_skip, lexed]
  rfl

theorem lexes_byte (b : UInt8) (token : Option Token)
    (scanned : ∀ rest, scanToken b rest = .ok (token, 1)) :
    Lexes Anything [b] token.toList :=
  fun rest _ _ lexed => @lexFrom_token _ b [] rest token _ (scanned rest) lexed

theorem lexes_space : Lexes Anything (lit " ") [] := lexes_byte 0x20 none fun _ => rfl

theorem lexes_lparen : Lexes Anything (lit "(") [.lparen] :=
  lexes_byte 0x28 (some .lparen) fun _ => rfl

theorem lexes_rparen : Lexes Anything (lit ")") [.rparen] :=
  lexes_byte 0x29 (some .rparen) fun _ => rfl

theorem lexes_colon : Lexes Anything (lit ":") [.colon] :=
  lexes_byte 0x3A (some .colon) fun _ => rfl

theorem scanToken_word (inside : b ∉ delimiters) (rest : GoString) : scanToken b rest =
      match scanWord 0 (b :: rest) with
      | .error err => .error err
      | .ok w =>
        if w.width = 0 then .error (.unexpectedCharacter [b])
        else .ok (some (wordToken ((b :: rest).take w.width) w), w.width) := by
  have other {c : UInt8} (delimits : c ∈ delimiters) : b ≠ c := fun same => inside (same ▸ delimits)
  have visible : b ∉ lit " \t\n\r" := fun space => inside (List.mem_of_mem_take (i := 4) space)
  rewrite [scanToken, if_neg visible, if_neg (other (by decide)), if_neg (other (by decide)), if_neg (other (by decide)),
    if_neg (other (by decide)), if_neg (other (by decide)), if_neg (other (by decide))]
  rfl

theorem lexes_word (scans : Scans raw text glob) (some : raw ≠ [])
    (inside : ∀ b ∈ raw.head?, b ∉ delimiters) :
    Lexes Boundary raw [wordToken raw ⟨text, glob, raw.length⟩] := by
  intro rest more boundary lexed
  obtain ⟨b, tail, rfl⟩ := List.exists_cons_of_ne_nil some
  have ended : scanWord 0 rest = .ok ⟨[], [], 0⟩ := by
    cases rest with
    | nil => rfl
    | cons c rest => rw [scanWord, if_pos (boundary c rfl)]
  have scanned := scans rest _ ended
  simp only [List.append_nil, Nat.add_zero] at scanned
  refine @lexFrom_token _ b tail rest (.some _) _ ?_ lexed
  rw [scanToken_word (inside b rfl), ← cons_append, scanned]
  simp

omit [Unicode] in
theorem scans_word (word : GoString) (plain : ∀ b ∈ word, b ∉ delimiters ∧ b ≠ backslash) :
    Scans word word word := by
  induction word with
  | nil => exact scans_nil
  | cons b word ih =>
    obtain ⟨first, others⟩ := List.forall_mem_cons.mp plain
    exact (scans_plain first.1 first.2).append (ih others)

theorem lexes_keyword (word : GoString) (some : word ≠ [])
    (plain : ∀ b ∈ word, b ∉ delimiters ∧ b ≠ backslash) :
    Lexes Anything (word ++ lit " ") [wordToken word ⟨word, word, word.length⟩] :=
  (lexes_word (scans_word word plain) some fun b head => (plain b (List.mem_of_mem_head? head)).1).ended lexes_space
    (by decide)

theorem lexes_not : Lexes Anything (lit "NOT ") [.not] :=
  lexes_keyword (lit "NOT") (by decide) (by decide +kernel)

theorem lexes_and : Lexes Anything (lit " AND ") [.and] :=
  lexes_space.before (lexes_keyword (lit "AND") (by decide) (by decide +kernel))

theorem lexes_or : Lexes Anything (lit " OR ") [.or] :=
  lexes_space.before (lexes_keyword (lit "OR") (by decide) (by decide +kernel))

def opener (inclusive : Bool) : UInt8 := if inclusive then byte '[' else 0x7B

def closer (inclusive : Bool) : UInt8 := if inclusive then byte ']' else 0x7D

def rangeText (lo hi : GoString) (inclusive : Bool) : GoString :=
  opener inclusive :: (lo ++ lit " TO " ++ hi ++ [closer inclusive])

omit [Unicode] in
theorem indexByte_append {front : GoString} (absent : b ∉ front) (rest : GoString) :
    indexByte (front ++ b :: rest) b = some front.length := by
  rw [indexByte, List.findIdx?_append, List.findIdx?_eq_none_iff.mpr]
  · simp [List.findIdx?_cons]
  · intro c mem
    simpa using fun same : c = b => absent (same ▸ mem)

omit [Unicode] in
theorem cut_to (within : ¬ lit " TO " <:+: lo) (atEnd : ¬ lit " TO" <:+ lo) (hi : GoString) :
    cut (lit " TO ") (lo ++ lit " TO " ++ hi) = some (lo, hi) := by
  refine cut_append (by decide) ?_ hi
  rintro ⟨before, after, same⟩
  -- read from the end: how many of the three bytes behind `lo` come after the occurrence
  have reversed : after.reverse ++ [0x20, 0x4F, 0x54, 0x20] ++ before.reverse =
      [0x4F, 0x54, 0x20] ++ lo.reverse := by
    have := congrArg List.reverse same
    rwa [reverse_append, reverse_append, reverse_append, ← append_assoc] at this
  rcases behind : after.reverse with _ | ⟨a, _ | ⟨b, _ | ⟨c, tail⟩⟩⟩ <;> rw [behind] at reversed
  · simp at reversed
  · simp at reversed
  · have ending : lo.reverse = [0x4F, 0x54, 0x20] ++ before.reverse := by simp_all
    refine atEnd ⟨before, ?_⟩
    rw [List.reverse_eq_iff.mp ending, reverse_append, List.reverse_reverse]
    rfl
  · have inner : lo.reverse = tail ++ [0x20, 0x4F, 0x54, 0x20] ++ before.reverse := by simp_all
    refine within ⟨before, tail.reverse, ?_⟩
    rw [List.reverse_eq_iff.mp inner, reverse_append, reverse_append, List.reverse_reverse,
      append_assoc]
    rfl

theorem lexes_range {hi : GoString} {inclusive : Bool} (loOpen : closer inclusive ∉ lo)
    (hiOpen : closer inclusive ∉ hi) (within : ¬ lit " TO " <:+: lo) (atEnd : ¬ lit " TO" <:+ lo)
    (loBare : trimSpace lo = lo) (hiBare : trimSpace hi = hi) :
    Lexes Anything (rangeText lo hi inclusive) [.range (toLower lo) (toLower hi) inclusive inclusive] := by
  intro rest more _ lexed
  have plain : closer inclusive ∉ lo ++ lit " TO " ++ hi := by
    have separate : closer inclusive ∉ lit " TO " := by
      cases inclusive <;> decide
    simp [loOpen, hiOpen, separate]
  have scanned : scanRange (closer inclusive) inclusive (lo ++ lit " TO " ++ hi ++ [closer inclusive] ++ rest) =
      .ok (.range (toLower lo) (toLower hi) inclusive inclusive, (lo ++ lit " TO " ++ hi).length + 2) := by
    rw [append_assoc, List.singleton_append, scanRange, indexByte_append plain]
    dsimp only
    rw [List.take_left, cut_to within atEnd]
    dsimp only
    rw [loBare, hiBare]
  have token : scanToken (opener inclusive) (lo ++ lit " TO " ++ hi ++ [closer inclusive] ++ rest) =
      .ok (some (.range (toLower lo) (toLower hi) inclusive inclusive),
        (lo ++ lit " TO " ++ hi ++ [closer inclusive]).length + 1) := by
    have length : (lo ++ lit " TO " ++ hi).length + 2 =
        (lo ++ lit " TO " ++ hi ++ [closer inclusive]).length + 1 := by
      simp only [List.length_append, List.length_singleton]
    rw [length] at scanned
    cases inclusive
    · change (scanRange (closer false) false _).map _ = _
      rw [scanned]
      rfl
    · change (scanRange (closer true) true _).map _ = _
      rw [scanned]
      rfl
  exact lexFrom_token token lexed

end

/-! ## The parser: an induction rule, and fuel that is always enough -/

variable [Unicode] {text glob s : GoString} {negate : Bool} {p : Cursor} {q : Query} {bound bound' : Nat}

structure Compositional (P : Query → Prop) : Prop where
  term : ∀ field value glob phrase, P (buildTerm field value glob phrase)
  range : ∀ r, P (.rangeQ r)
  andQ : ∀ l r, P l → P r → P (.andQ l r)
  orQ : ∀ l r, P l → P r → P (.orQ l r)
  notQ : ∀ q, P q → P (.notQ q)

variable {P : Query → Prop}

theorem Compositional.clause (rules : Compositional P)
    {p' : Cursor} (parsed : parseClause text glob negate p = .ok (q, p')) : P q := by
  have signed {q : Query} (holds : P q) : P (negateIf negate q) := by
    unfold negateIf
    split_ifs
    · exact rules.notQ q holds
    · exact holds
  unfold parseClause at parsed
  dsimp only at parsed
  generalize (if negate then text.tail else text) = field at parsed
  generalize (if negate then glob.tail else glob) = pattern at parsed
  split_ifs at parsed with colon
  · split at parsed <;> cases parsed
    · exact signed (rules.term _ _ _ _)
    · exact signed (rules.term _ _ _ _)
    · exact signed (rules.range _)
  · cases parsed
    exact signed (rules.term _ _ _ _)

structure Sound (P : Query → Prop) (fuel : Nat) : Prop where
  or : ∀ p q p', parseOr fuel p = .ok (q, p') → P q
  orLoop : ∀ left p q p', P left → orLoop fuel left p = .ok (q, p') → P q
  and : ∀ p q p', parseAnd fuel p = .ok (q, p') → P q
  andLoop : ∀ left p q p', P left → andLoop fuel left p = .ok (q, p') → P q
  unary : ∀ p q p', parseUnary fuel p = .ok (q, p') → P q
  primary : ∀ p q p', parsePrimary fuel p = .ok (q, p') → P q

omit [Unicode] in
theorem bind_eq_ok {α β : Type} {x : Except ParseError α} {f : α → Except ParseError β} {r : β} :
    (x >>= f) = .ok r ↔ ∃ a, x = .ok a ∧ f a = .ok r := by
  cases x <;> simp [bind, Except.bind]

theorem Compositional.sound (rules : Compositional P) (fuel : Nat) : Sound P fuel := by
  induction fuel with
  | zero => constructor <;> simp [parseOr, orLoop, parseAnd, andLoop, parseUnary, parsePrimary]
  | succ fuel ih =>
    constructor
    · intro p q p' parsed
      rw [parseOr, bind_eq_ok] at parsed
      obtain ⟨⟨left, rest⟩, first, parsed⟩ := parsed
      exact ih.orLoop left rest q p' (ih.and p left rest first) parsed
    · intro left p q p' holds parsed
      rw [orLoop] at parsed
      split_ifs at parsed with more
      · obtain ⟨⟨right, rest⟩, second, parsed⟩ := bind_eq_ok.mp parsed
        exact ih.orLoop _ rest q p' (rules.orQ left right holds (ih.and _ right rest second)) parsed
      · cases parsed
        exact holds
    · intro p q p' parsed
      rw [parseAnd, bind_eq_ok] at parsed
      obtain ⟨⟨left, rest⟩, first, parsed⟩ := parsed
      exact ih.andLoop left rest q p' (ih.unary p left rest first) parsed
    · intro left p q p' holds parsed
      rw [andLoop] at parsed
      split at parsed
      · cases parsed
        exact holds
      · obtain ⟨⟨right, rest⟩, second, parsed⟩ := bind_eq_ok.mp parsed
        exact ih.andLoop _ rest q p' (rules.andQ left right holds (ih.unary _ right rest second)) parsed
    · intro p q p' parsed
      rw [parseUnary] at parsed
      split_ifs at parsed with negated
      · obtain ⟨⟨inner, rest⟩, first, parsed⟩ := bind_eq_ok.mp parsed
        cases parsed
        exact rules.notQ inner (ih.unary _ inner _ first)
      · exact ih.primary p q p' parsed
    · intro p q p' parsed
      rw [parsePrimary] at parsed
      split at parsed
      · obtain ⟨⟨inner, rest⟩, first, parsed⟩ := bind_eq_ok.mp parsed
        dsimp only at parsed
        split_ifs at parsed
        cases parsed
        exact ih.or _ q rest first
      · cases parsed
        exact rules.term _ _ _ _
      · exact rules.clause parsed
      · cases parsed

theorem Compositional.parse (rules : Compositional P) (accepted : parse s = .ok q) : P q := by
  obtain ⟨toks, -, accepted⟩ := bind_eq_ok.mp accepted
  obtain ⟨⟨parsed, p⟩, run, accepted⟩ := bind_eq_ok.mp accepted
  dsimp only at accepted
  split_ifs at accepted
  cases accepted
  exact (rules.sound _).or toks q p run

def Terminated (p : Cursor) : Prop := p.getLast? = some .eof

omit [Unicode] in
theorem Terminated.next (terminated : Terminated p) (more : peek p ≠ .eof) :
    Terminated (next p) ∧ (next p).length + 1 = p.length := by
  match p with
  | [] => cases terminated
  | [t] =>
    simp only [Terminated, List.getLast?_singleton, Option.some.injEq] at terminated
    exact absurd terminated more
  | t :: u :: rest => exact ⟨by simpa [Terminated, CincServer.Search.next] using terminated, rfl⟩

def Progress (bound : Nat) : Parsed → Prop
  | .error err => err ≠ .outOfFuel
  | .ok (_, p) => Terminated p ∧ p.length < bound

omit [Unicode] in
theorem Progress.mono {parsed : Parsed} (progress : Progress bound parsed)
    (le : bound ≤ bound') : Progress bound' parsed := by
  unfold Progress at progress ⊢
  split at progress
  · exact progress
  · exact ⟨progress.1, by omega⟩

omit [Unicode] in
theorem Progress.bind {x : Parsed} {f : Query × Cursor → Parsed} (first : Progress bound x)
    (rest : ∀ q p, Terminated p → p.length < bound → Progress bound' (f (q, p))) :
    Progress bound' (x >>= f) := by
  match x with
  | .error err => exact first
  | .ok (q, p) => exact rest q p first.1 first.2

theorem progress_clause (terminated : Terminated p)
    (here : peek p = .word text glob negate) :
    Progress p.length (parseClause text glob negate p) := by
  obtain ⟨after, shorter⟩ := terminated.next (by simp [here])
  unfold parseClause
  dsimp only
  split_ifs with colon
  all_goals try exact ⟨after, by omega⟩
  all_goals
    obtain ⟨afterColon, shorter'⟩ := after.next (by simp [colon])
    split
    case h_4 => simp [Progress]
    all_goals
      rename_i value
      obtain ⟨rest, shorter''⟩ := afterColon.next (by simp [value])
      exact ⟨rest, by omega⟩

structure Adequate (fuel : Nat) : Prop where
  or : ∀ p, Terminated p → 4 * p.length ≤ fuel → Progress p.length (parseOr fuel p)
  orLoop : ∀ left p, Terminated p → 4 * p.length ≤ fuel → Progress (p.length + 1) (orLoop fuel left p)
  and : ∀ p, Terminated p → 4 * p.length ≤ fuel + 1 → Progress p.length (parseAnd fuel p)
  andLoop : ∀ left p, Terminated p → 4 * p.length ≤ fuel + 1 →
    Progress (p.length + 1) (andLoop fuel left p)
  unary : ∀ p, Terminated p → 4 * p.length ≤ fuel + 2 → Progress p.length (parseUnary fuel p)
  primary : ∀ p, Terminated p → 4 * p.length ≤ fuel + 3 → Progress p.length (parsePrimary fuel p)

omit [Unicode] in
theorem Terminated.length_pos (terminated : Terminated p) : 0 < p.length := by
  cases p with
  | nil => cases terminated
  | cons t rest => exact Nat.succ_pos _

omit [Unicode] in
theorem clauseStart_some {start : Cursor} (terminated : Terminated p)
    (starts : clauseStart p = some start) : Terminated start ∧ start.length ≤ p.length := by
  unfold clauseStart at starts
  split at starts <;> cases starts
  · rename_i here
    obtain ⟨after, shorter⟩ := terminated.next (by simp [here])
    exact ⟨after, by omega⟩
  all_goals exact ⟨terminated, le_rfl⟩

theorem adequate (fuel : Nat) : Adequate fuel := by
  induction fuel with
  | zero =>
    constructor
    all_goals
      intros
      rename_i p terminated enough
      have := terminated.length_pos
      omega
  | succ fuel ih =>
    constructor
    · intro p terminated enough
      rw [parseOr]
      refine (ih.and p terminated (by omega)).bind fun left rest ends shorter => ?_
      exact (ih.orLoop left rest ends (by omega)).mono (by omega)
    · intro left p terminated enough
      rw [orLoop]
      split_ifs with more
      · obtain ⟨after, consumed⟩ := terminated.next (by simp [more])
        refine (ih.and (next p) after (by omega)).bind fun right rest ends shorter => ?_
        exact (ih.orLoop _ rest ends (by omega)).mono (by omega)
      · exact ⟨terminated, Nat.lt_succ_self _⟩
    · intro p terminated enough
      rw [parseAnd]
      refine (ih.unary p terminated (by omega)).bind fun left rest ends shorter => ?_
      exact (ih.andLoop left rest ends (by omega)).mono (by omega)
    · intro left p terminated enough
      rw [andLoop]
      split
      · exact ⟨terminated, Nat.lt_succ_self _⟩
      · rename_i start starts
        obtain ⟨begun, le⟩ := clauseStart_some terminated starts
        refine (ih.unary start begun (by omega)).bind fun right rest ends shorter => ?_
        exact (ih.andLoop _ rest ends (by omega)).mono (by omega)
    · intro p terminated enough
      rw [parseUnary]
      split_ifs with negated
      · obtain ⟨after, consumed⟩ := terminated.next (by simp [negated])
        refine (ih.unary (next p) after (by omega)).bind fun q rest ends shorter => ?_
        exact ⟨ends, by omega⟩
      · exact ih.primary p terminated (by omega)
    · intro p terminated enough
      rw [parsePrimary]
      split
      · rename_i here
        obtain ⟨after, consumed⟩ := terminated.next (by simp [here])
        refine (ih.or (next p) after (by omega)).bind fun q rest ends shorter => ?_
        dsimp only
        split_ifs with closed
        · obtain ⟨last, consumed'⟩ := ends.next (by simp [closed])
          exact ⟨last, by omega⟩
        · simp [Progress]
      · rename_i text here
        obtain ⟨after, consumed⟩ := terminated.next (by simp [here])
        exact ⟨after, by omega⟩
      · rename_i text glob negate here
        exact progress_clause terminated here
      · simp [Progress]

theorem lexFrom_terminated {skip : Nat} {toks : List Token} (lexed : lexFrom skip s = .ok toks) :
    Terminated toks := by
  induction s generalizing skip toks with
  | nil =>
    cases skip <;> cases lexed <;> rfl
  | cons b rest ih =>
    cases skip with
    | succ skip => exact ih lexed
    | zero =>
      rw [lexFrom] at lexed
      split at lexed
      · cases lexed
      · rename_i token width scanned
        cases more : lexFrom (width - 1) rest with
        | error err => simp [more, Except.map] at lexed
        | ok later =>
          have ends := ih more
          simp only [more, Except.map, Except.ok.injEq] at lexed
          subst lexed
          simp only [Terminated] at ends ⊢
          rw [List.getLast?_append, ends]
          rfl

theorem parseOr_fuel {toks : List Token} (lexed : lex s = .ok toks) :
    parseOr (fuelFor toks) toks ≠ .error .outOfFuel := by
  have progress := (adequate (fuelFor toks)).or toks (lexFrom_terminated lexed) le_rfl
  intro run
  rw [run] at progress
  exact progress rfl

def nestedTokens : List Token :=
  [.lparen, .word (lit "name") (lit "name") false, .colon, .word (lit "web*") (lit "web*") false, .or, .not,
    .word (lit "role") (lit "role") false, .colon, .word (lit "db") (lit "db") false, .rparen, .eof]

omit [Unicode] in
theorem nested_within_fuel : letI : Unicode := ⟨id⟩
    lex (lit "(name:web* OR NOT role:db)") = .ok nestedTokens ∧
      parseOr (fuelFor nestedTokens) nestedTokens ≠ .error .outOfFuel := by
  let _ : Unicode := ⟨id⟩
  have lexed : lex (lit "(name:web* OR NOT role:db)") = .ok nestedTokens := by decide +kernel
  exact ⟨lexed, parseOr_fuel lexed⟩

end

/-! ## The query language means what it says -/

open List (exists_cons_of_ne_nil length_append append_assoc length_cons)

variable {p rest : Cursor} {s : GoString}

structure Utf8 where
  bytes : GoString
  valid : validString bytes
  filled : bytes ≠ []

structure Plain extends Utf8 where
  plain : ∀ b ∈ bytes, b ∉ delimiters ∧ b ∉ lit "\\*?"
  unsigned : bytes.head? ≠ some (byte '-')

inductive Piece
  | escaped (s : Utf8)
  | plain (s : Plain)
  | star
  | question

def Piece.raw : Piece → GoString
  | .escaped s => escapeEach s.bytes
  | .plain s => s.bytes
  | .star => lit "*"
  | .question => lit "?"

def Piece.value : Piece → GoString
  | .escaped s => s.bytes
  | .plain s => s.bytes
  | .star => lit "*"
  | .question => lit "?"

def Piece.glob : Piece → GoString
  | .escaped s => quoteWildcards s.bytes
  | .plain s => s.bytes
  | .star => lit "*"
  | .question => lit "?"

structure Wildcard where
  pieces : List Piece
  wild : .star ∈ pieces ∨ .question ∈ pieces

structure Bound (inclusive : Bool) extends Utf8 where
  unclosed : closer inclusive ∉ bytes
  undivided : ¬ lit " TO " <:+: bytes
  front : ∀ r ∈ (runes bytes).head?, isSpace r = false
  back : ∀ r ∈ (runes bytes).getLast?, isSpace r = false

inductive Leaf
  | literal (field : Option Utf8) (value : Utf8)
  | wildcard (field : Option Utf8) (value : Wildcard)
  | existence (field : Utf8)
  | matchAll
  | range (field : Utf8) (inclusive : Bool) (lo hi : Bound inclusive)

inductive Tree
  | leaf (l : Leaf)
  | and (l r : Tree)
  | or (l r : Tree)
  | not (t : Tree)

def fieldName (field : Option Utf8) : GoString := (field.map Utf8.bytes).getD []

section Meaning

variable [Unicode]

def Leaf.meaning : Leaf → Query
  | .literal field value => buildTerm (fieldName field) value.bytes (quoteWildcards value.bytes) false
  | .wildcard field value =>
    buildTerm (fieldName field) (value.pieces.flatMap Piece.value) (value.pieces.flatMap Piece.glob) false
  | .existence field => buildTerm field.bytes (lit "*") (lit "*") false
  | .matchAll => buildTerm (lit "*") (lit "*") (lit "*") false
  | .range field inclusive lo hi =>
    .rangeQ { field := toLower field.bytes, lo := toLower lo.bytes, hi := toLower hi.bytes,
              incLo := inclusive, incHi := inclusive }

def Tree.meaning : Tree → Query
  | .leaf l => l.meaning
  | .and l r => .andQ l.meaning r.meaning
  | .or l r => .orQ l.meaning r.meaning
  | .not t => .notQ t.meaning

end Meaning

def fieldText : Option Utf8 → GoString
  | none => []
  | some field => escapeEach field.bytes ++ lit ":"

def Leaf.text : Leaf → GoString
  | .literal field value => fieldText field ++ escapeEach value.bytes
  | .wildcard field value => fieldText field ++ value.pieces.flatMap Piece.raw
  | .existence field => fieldText (some field) ++ lit "*"
  | .matchAll => lit "*:*"
  | .range field inclusive lo hi => fieldText (some field) ++ rangeText lo.bytes hi.bytes inclusive

def Tree.parenthesized : Tree → GoString
  | .leaf l => lit "(" ++ l.text ++ lit ")"
  | .and l r => lit "(" ++ (l.parenthesized ++ lit " AND " ++ r.parenthesized) ++ lit ")"
  | .or l r => lit "(" ++ (l.parenthesized ++ lit " OR " ++ r.parenthesized) ++ lit ")"
  | .not t => lit "(" ++ (lit "NOT " ++ t.parenthesized) ++ lit ")"

inductive Precedence
  | or
  | and
  | not

/-- The texts of a tree. Parentheses may be left out around what binds at least as strongly as its place
asks for, and `AND` wherever it stands. -/
inductive Written : Precedence → Tree → GoString → Prop
  | leaf (l : Leaf) : Written .not (.leaf l) l.text
  | parens {t : Tree} {s : GoString} : Written .or t s → Written .not t (lit "(" ++ s ++ lit ")")
  | not {t : Tree} {s : GoString} : Written .not t s → Written .not (.not t) (lit "NOT " ++ s)
  | andOfNot {t : Tree} {s : GoString} : Written .not t s → Written .and t s
  | and {l r : Tree} {s s' : GoString} :
      Written .and l s → Written .and r s' → Written .and (.and l r) (s ++ lit " AND " ++ s')
  | juxtaposed {l r : Tree} {s s' : GoString} :
      Written .and l s → Written .and r s' → Written .and (.and l r) (s ++ lit " " ++ s')
  | orOfAnd {t : Tree} {s : GoString} : Written .and t s → Written .or t s
  | or {l r : Tree} {s s' : GoString} :
      Written .or l s → Written .or r s' → Written .or (.or l r) (s ++ lit " OR " ++ s')

theorem written_parenthesized (t : Tree) : Written .not t t.parenthesized := by
  induction t with
  | leaf l => exact .parens (.orOfAnd (.andOfNot (.leaf l)))
  | and l r ihl ihr => exact .parens (.orOfAnd (.and (.andOfNot ihl) (.andOfNot ihr)))
  | or l r ihl ihr => exact .parens (.or (.orOfAnd (.andOfNot ihl)) (.orOfAnd (.andOfNot ihr)))
  | not t ih => exact .parens (.orOfAnd (.andOfNot (.not ih)))

def Leaf.Separable : Leaf → Prop
  | .range _ _ lo _ => ¬ lit " TO" <:+ lo.bytes
  | _ => True

def Tree.Separable : Tree → Prop
  | .leaf l => l.Separable
  | .and l r => l.Separable ∧ r.Separable
  | .or l r => l.Separable ∧ r.Separable
  | .not t => t.Separable

variable {t : Tree}

section Reading

variable [Unicode]

def Follow (rest : Cursor) : Prop := rest ≠ [] ∧ peek rest ≠ .colon

def Starts (toks : List Token) : Prop := ∀ rest, clauseStart (toks ++ rest) = some (toks ++ rest)

structure ReadsUnary (toks : List Token) (m : Fields → Bool) : Prop where
  starts : Starts toks
  reads : ∀ rest fuel, Follow rest → 4 * (toks ++ rest).length ≤ fuel + 2 →
    ∃ q : Query, q.matchesFields = m ∧ parseUnary fuel (toks ++ rest) = .ok (q, rest)

def Reaches (loop : Nat → Query → Cursor → Parsed) (slack : Nat) (run : Parsed) (m : Fields → Bool)
    (rest : Cursor) : Prop :=
  ∃ (q : Query) (fuel : Nat), q.matchesFields = m ∧ 4 * rest.length ≤ fuel + slack ∧ run = loop fuel q rest

structure ReadsAnd (toks : List Token) (m : Fields → Bool) : Prop where
  starts : Starts toks
  first : ∀ rest fuel, Follow rest → 4 * (toks ++ rest).length ≤ fuel + 1 →
    Reaches andLoop 1 (parseAnd fuel (toks ++ rest)) m rest
  more : ∀ (left : Query) p rest fuel, Follow rest → clauseStart p = some (toks ++ rest) →
    4 * p.length ≤ fuel + 1 →
    Reaches andLoop 1 (andLoop fuel left p) (fun f => left.matchesFields f && m f) rest

structure ReadsOr (toks : List Token) (m : Fields → Bool) : Prop where
  first : ∀ rest fuel, Follow rest → clauseStart rest = none → 4 * (toks ++ rest).length ≤ fuel →
    Reaches orLoop 0 (parseOr fuel (toks ++ rest)) m rest
  more : ∀ (left : Query) rest fuel, Follow rest → clauseStart rest = none →
    4 * (.or :: (toks ++ rest)).length ≤ fuel →
    Reaches orLoop 0 (orLoop fuel left (.or :: (toks ++ rest))) (fun f => left.matchesFields f || m f) rest

def Understood : Precedence → List Token → (Fields → Bool) → Prop
  | .or => ReadsOr
  | .and => ReadsAnd
  | .not => ReadsUnary

section Parsing

variable {toks toks' : List Token} {m m' : Fields → Bool}

section Cursors

omit [Unicode]

theorem Starts.length_pos (starts : Starts toks) : 0 < toks.length := by
  rw [List.length_pos_iff]
  rintro rfl
  cases starts []

theorem follow_of_clauseStart {start : Cursor} (starts : clauseStart p = some start) :
    Follow p := by
  constructor
  · rintro rfl
    cases starts
  · intro colon
    simp [clauseStart, colon] at starts

theorem length_clauseStart {start : Cursor} (starts : clauseStart p = some start) :
    start.length ≤ p.length := by
  have shorter : (next p).length ≤ p.length := by
    unfold next
    split <;> simp
  unfold clauseStart at starts
  split at starts <;> cases starts
  · exact shorter
  all_goals exact le_rfl

theorem peek_cons (t : Token) (rest : Cursor) : peek (t :: rest) = t := rfl

theorem follow_cons {t : Token} (other : t ≠ .colon) (rest : Cursor) : Follow (t :: rest) :=
  ⟨List.cons_ne_nil _ _, other⟩

theorem Follow.append (follow : Follow rest) (toks : List Token) : toks ++ rest ≠ [] :=
  List.append_ne_nil_of_right_ne_nil _ follow.1

theorem next_cons (t : Token) (more : rest ≠ []) : next (t :: rest) = rest := by
  obtain ⟨u, rest, rfl⟩ := exists_cons_of_ne_nil more
  rfl

theorem clauseStart_and (starts : Starts toks) (rest : Cursor) :
    clauseStart ([.and] ++ (toks ++ rest)) = some (toks ++ rest) :=
  congrArg some (next_cons .and (follow_of_clauseStart (starts rest)).1)

end Cursors

theorem ReadsUnary.and (unary : ReadsUnary toks m) : ReadsAnd toks m where
  starts := unary.starts
  first := by
    intro rest fuel follow enough
    have filled := unary.starts.length_pos
    rw [length_append] at enough
    obtain ⟨fuel, rfl⟩ : ∃ k, fuel = k + 1 := ⟨fuel - 1, by omega⟩
    obtain ⟨q, means, parsed⟩ := unary.reads rest fuel follow (by rw [length_append]; omega)
    refine ⟨q, fuel, means, by omega, ?_⟩
    rw [parseAnd, parsed]
    rfl
  more := by
    intro left p rest fuel follow starts enough
    have filled := unary.starts.length_pos
    have shorter := length_clauseStart starts
    rw [length_append] at shorter
    obtain ⟨fuel, rfl⟩ : ∃ k, fuel = k + 1 := ⟨fuel - 1, by omega⟩
    obtain ⟨q, means, parsed⟩ := unary.reads rest fuel follow (by rw [length_append]; omega)
    refine ⟨.andQ left q, fuel, by rw [← means]; rfl, by omega, ?_⟩
    rw [andLoop, starts]
    dsimp only
    rw [parsed]
    rfl

theorem ReadsAnd.append {sep : List Token} (l : ReadsAnd toks m) (r : ReadsAnd toks' m')
    (joins : ∀ rest, clauseStart (sep ++ (toks' ++ rest)) = some (toks' ++ rest)) :
    ReadsAnd (toks ++ sep ++ toks') (fun f => m f && m' f) where
  starts := by
    intro rest
    rw [append_assoc, append_assoc]
    exact l.starts _
  first := by
    intro rest fuel follow enough
    rw [append_assoc, append_assoc] at enough ⊢
    obtain ⟨q, fuel, means, enough, parsed⟩ :=
      l.first _ fuel (follow_of_clauseStart (joins rest)) enough
    rw [parsed, ← means]
    exact r.more q _ rest fuel follow (joins rest) enough
  more := by
    intro left p rest fuel follow starts enough
    rw [append_assoc, append_assoc] at starts
    obtain ⟨q, fuel, means, enough, parsed⟩ :=
      l.more left p _ fuel (follow_of_clauseStart (joins rest)) starts enough
    have whole := r.more q _ rest fuel follow (joins rest) enough
    rw [parsed]
    simpa only [means, Bool.and_assoc] using whole

theorem ReadsAnd.parse (conjunction : ReadsAnd toks m) (rest : Cursor) (fuel : Nat)
    (follow : Follow rest)
    (stops : clauseStart rest = none) (enough : 4 * (toks ++ rest).length ≤ fuel + 1) :
    ∃ q : Query, q.matchesFields = m ∧ parseAnd fuel (toks ++ rest) = .ok (q, rest) := by
  obtain ⟨q, fuel, means, enough, parsed⟩ := conjunction.first rest fuel follow enough
  have more := List.length_pos_iff.mpr follow.1
  obtain ⟨fuel, rfl⟩ : ∃ k, fuel = k + 1 := ⟨fuel - 1, by omega⟩
  exact ⟨q, means, by rw [parsed, andLoop, stops]⟩

theorem ReadsAnd.or (conjunction : ReadsAnd toks m) : ReadsOr toks m where
  first := by
    intro rest fuel follow stops enough
    have filled := conjunction.starts.length_pos
    rw [length_append] at enough
    obtain ⟨fuel, rfl⟩ : ∃ k, fuel = k + 1 := ⟨fuel - 1, by omega⟩
    obtain ⟨q, means, parsed⟩ :=
      conjunction.parse rest fuel follow stops (by rw [length_append]; omega)
    refine ⟨q, fuel, means, by omega, ?_⟩
    rw [parseOr, parsed]
    rfl
  more := by
    intro left rest fuel follow stops enough
    have filled := conjunction.starts.length_pos
    rw [length_cons, length_append] at enough
    obtain ⟨fuel, rfl⟩ : ∃ k, fuel = k + 1 := ⟨fuel - 1, by omega⟩
    obtain ⟨q, means, parsed⟩ :=
      conjunction.parse rest fuel follow stops (by rw [length_append]; omega)
    refine ⟨.orQ left q, fuel, by rw [← means]; rfl, by omega, ?_⟩
    rw [orLoop, if_pos (peek_cons _ _), next_cons _ (follow.append toks), parsed]
    rfl

theorem ReadsOr.append (l : ReadsOr toks m) (r : ReadsOr toks' m') :
    ReadsOr (toks ++ [.or] ++ toks') (fun f => m f || m' f) where
  first := by
    intro rest fuel follow stops enough
    rw [append_assoc, append_assoc, List.singleton_append] at enough ⊢
    obtain ⟨q, fuel, means, enough, parsed⟩ := l.first _ fuel (follow_cons (by simp) _) rfl enough
    rw [parsed, ← means]
    exact r.more q rest fuel follow stops enough
  more := by
    intro left rest fuel follow stops enough
    rw [append_assoc, append_assoc, List.singleton_append] at enough ⊢
    obtain ⟨q, fuel, means, enough, parsed⟩ :=
      l.more left _ fuel (follow_cons (by simp) _) rfl enough
    have whole := r.more q rest fuel follow stops enough
    rw [parsed]
    simpa only [means, Bool.or_assoc] using whole

theorem ReadsOr.parse (disjunction : ReadsOr toks m) (rest : Cursor) (fuel : Nat)
    (follow : Follow rest)
    (stops : clauseStart rest = none) (last : peek rest ≠ .or)
    (enough : 4 * (toks ++ rest).length ≤ fuel) :
    ∃ q : Query, q.matchesFields = m ∧ parseOr fuel (toks ++ rest) = .ok (q, rest) := by
  obtain ⟨q, fuel, means, enough, parsed⟩ := disjunction.first rest fuel follow stops enough
  have more := List.length_pos_iff.mpr follow.1
  obtain ⟨fuel, rfl⟩ : ∃ k, fuel = k + 1 := ⟨fuel - 1, by omega⟩
  exact ⟨q, means, by rw [parsed, orLoop, if_neg last]⟩

theorem ReadsUnary.not (unary : ReadsUnary toks m) :
    ReadsUnary ([.not] ++ toks) (fun f => !m f) where
  starts := fun _ => rfl
  reads := by
    intro rest fuel follow enough
    rw [append_assoc, length_append] at enough
    rw [List.length_singleton] at enough
    obtain ⟨fuel, rfl⟩ : ∃ k, fuel = k + 1 := ⟨fuel - 1, by omega⟩
    obtain ⟨q, means, parsed⟩ := unary.reads rest fuel follow (by omega)
    refine ⟨.notQ q, by rw [← means]; rfl, ?_⟩
    rw [append_assoc, List.singleton_append, parseUnary, if_pos (peek_cons _ _),
      next_cons _ (follow.append toks), parsed]
    rfl

theorem ReadsOr.parens (disjunction : ReadsOr toks m) :
    ReadsUnary ([.lparen] ++ toks ++ [.rparen]) m where
  starts := fun _ => rfl
  reads := by
    intro rest fuel follow enough
    have shape : [.lparen] ++ toks ++ [.rparen] ++ rest = .lparen :: (toks ++ .rparen :: rest) := by simp
    rw [shape] at enough ⊢
    rw [length_cons] at enough
    obtain ⟨fuel, rfl⟩ : ∃ k, fuel = k + 2 := ⟨fuel - 2, by omega⟩
    obtain ⟨q, means, parsed⟩ :=
      disjunction.parse (.rparen :: rest) fuel (follow_cons (by simp) _) rfl (by simp [peek_cons]) (by omega)
    refine ⟨q, means, ?_⟩
    rw [parseUnary, if_neg (by simp [peek_cons]), parsePrimary, peek_cons]
    dsimp only
    rw [next_cons _ (by simp), parsed]
    obtain ⟨t, rest, rfl⟩ := exists_cons_of_ne_nil follow.1
    rfl

theorem readsUnary_word {text glob : GoString} {tail : List Token} {q : Query}
    (parsed : ∀ rest, Follow rest →
      parseClause text glob false (.word text glob false :: (tail ++ rest)) = .ok (q, rest)) :
    ReadsUnary (.word text glob false :: tail) q.matchesFields where
  starts := fun _ => rfl
  reads := by
    intro rest fuel follow enough
    rw [List.cons_append] at enough ⊢
    rw [length_cons] at enough
    obtain ⟨fuel, rfl⟩ : ∃ k, fuel = k + 2 := ⟨fuel - 2, by omega⟩
    refine ⟨q, rfl, ?_⟩
    rw [parseUnary, if_neg (by simp [peek_cons]), parsePrimary, peek_cons]
    exact parsed rest follow

theorem readsUnary_bare (text glob : GoString) :
    ReadsUnary [.word text glob false] (buildTerm [] text glob false).matchesFields :=
  readsUnary_word fun rest follow => by
    rw [List.nil_append, parseClause, next_cons _ follow.1]
    simp [follow.2, negateIf]

theorem readsUnary_term (field pattern text glob : GoString) :
    ReadsUnary [.word field pattern false, .colon, .word text glob false]
      (buildTerm field text glob false).matchesFields :=
  readsUnary_word fun rest follow => by
    obtain ⟨t, rest, rfl⟩ := exists_cons_of_ne_nil follow.1
    rfl

theorem readsUnary_range (field pattern lo hi : GoString) (incLo incHi : Bool) :
    ReadsUnary [.word field pattern false, .colon, .range lo hi incLo incHi]
      (Query.rangeQ { field := toLower field, lo, hi, incLo, incHi }).matchesFields :=
  readsUnary_word fun rest follow => by
    obtain ⟨t, rest, rfl⟩ := exists_cons_of_ne_nil follow.1
    rfl

end Parsing

structure Opens (raw : GoString) : Prop where
  start : ∃ b tail, raw = b :: tail ∧ b ∉ delimiters ∧ b ≠ byte '-'
  marked : ∃ b ∈ raw, b ∈ lit "\\*?"

omit [Unicode] in
theorem Opens.wordToken {raw : GoString} (opens : Opens raw) (w : Word) :
    wordToken raw w = .word w.text w.glob false := by
  obtain ⟨b, mem, mark⟩ := opens.marked
  have unmarked : ∀ c ∈ lit "\\*?", c ∉ lit "AND" ∧ c ∉ lit "OR" ∧
      c ∉ lit "NOT" := by decide +kernel
  obtain ⟨notAnd, notOr, notNot⟩ := unmarked b mark
  have differs {word : GoString} (absent : b ∉ word) : raw ≠ word := fun same => absent (same ▸ mem)
  rw [CincServer.Search.wordToken, if_neg (differs notAnd), if_neg (differs notOr),
    if_neg (differs notNot)]
  obtain ⟨c, tail, rfl, -, unsigned⟩ := opens.start
  simp [unsigned]

theorem lexes_term {raw text glob : GoString} (scans : Scans raw text glob) (opens : Opens raw) :
    Lexes Boundary raw [.word text glob false] := by
  have token := opens.wordToken ⟨text, glob, raw.length⟩
  obtain ⟨b, tail, rfl, inside, -⟩ := opens.start
  have lexed := lexes_word scans (List.cons_ne_nil _ _) (by simpa using inside)
  rwa [token] at lexed

section Pieces

omit [Unicode]

theorem opens_cons {b : UInt8} (mark : b ∈ lit "\\*?") (tail : GoString) : Opens (b :: tail) where
  start := by
    have outside : ∀ c ∈ lit "\\*?", c ∉ delimiters ∧ c ≠ byte '-' := by decide +kernel
    exact ⟨b, tail, rfl, outside b mark⟩
  marked := ⟨b, List.mem_cons_self, mark⟩

theorem opens_escapeEach (filled : s ≠ []) : Opens (escapeEach s) := by
  obtain ⟨b, rest, rfl⟩ := exists_cons_of_ne_nil filled
  exact opens_cons (b := backslash) (by decide) _

theorem opens_star : Opens (lit "*") := opens_cons (b := byte '*') (by decide) []

theorem Piece.scans (piece : Piece) : Scans piece.raw piece.value piece.glob := by
  cases piece with
  | escaped s => exact scans_escapeEach s.valid
  | plain s =>
    refine scans_word s.bytes fun b mem => ?_
    obtain ⟨inside, unmarked⟩ := s.plain b mem
    exact ⟨inside, fun same => unmarked (same ▸ by decide)⟩
  | _ => exact scans_plain (by decide) (by decide)

theorem Piece.start (piece : Piece) :
    ∃ b tail, piece.raw = b :: tail ∧ b ∉ delimiters ∧ b ≠ byte '-' := by
  cases piece with
  | escaped s => exact (opens_escapeEach s.filled).start
  | plain s =>
    obtain ⟨b, tail, same⟩ := exists_cons_of_ne_nil s.filled
    refine ⟨b, tail, same, (s.plain b (by simp [same])).1, fun minus => s.unsigned ?_⟩
    simp [same, minus]
  | star => exact opens_star.start
  | question => exact (opens_cons (b := byte '?') (by decide) []).start

theorem scans_pieces (pieces : List Piece) :
    Scans (pieces.flatMap Piece.raw) (pieces.flatMap Piece.value) (pieces.flatMap Piece.glob) := by
  induction pieces with
  | nil => exact scans_nil
  | cons piece pieces ih => exact piece.scans.append ih

theorem Wildcard.opens (value : Wildcard) : Opens (value.pieces.flatMap Piece.raw) where
  start := by
    obtain ⟨piece, pieces, same⟩ : ∃ piece pieces, value.pieces = piece :: pieces :=
      exists_cons_of_ne_nil fun none => by simpa [none] using value.wild
    obtain ⟨b, tail, first, outside⟩ := piece.start
    exact ⟨b, tail ++ pieces.flatMap Piece.raw,
      by rw [same, List.flatMap_cons, first, List.cons_append], outside⟩
  marked := by
    rcases value.wild with star | question
    · exact ⟨byte '*', List.mem_flatMap.mpr ⟨.star, star, by decide⟩, by decide⟩
    · exact ⟨byte '?', List.mem_flatMap.mpr ⟨.question, question, by decide⟩, by decide⟩

end Pieces

theorem lexes_field (field : Utf8) :
    Lexes Anything (fieldText (some field)) [.word field.bytes (quoteWildcards field.bytes) false, .colon] :=
  (lexes_term (scans_escapeEach field.valid) (opens_escapeEach field.filled)).ended lexes_colon (by decide)

theorem understood_term (field : Option Utf8) {raw text glob : GoString}
    (scans : Scans raw text glob)
    (opens : Opens raw) : ∃ toks, Lexes Boundary (fieldText field ++ raw) toks ∧
      ReadsUnary toks (buildTerm (fieldName field) text glob false).matchesFields := by
  have term := lexes_term scans opens
  cases field with
  | none => exact ⟨_, term, readsUnary_bare text glob⟩
  | some field => exact ⟨_, (lexes_field field).before term, readsUnary_term _ _ text glob⟩

theorem understood_leaf (l : Leaf) (separable : l.Separable) :
    ∃ toks, Lexes Boundary l.text toks ∧ ReadsUnary toks l.meaning.matchesFields := by
  cases l with
  | literal field value => exact understood_term field (scans_escapeEach value.valid) (opens_escapeEach value.filled)
  | wildcard field value => exact understood_term field (scans_pieces value.pieces) value.opens
  | existence field => exact understood_term (some field) Piece.star.scans opens_star
  | matchAll =>
    have star := lexes_term Piece.star.scans opens_star
    exact ⟨_, (star.ended lexes_colon (by decide)).before star, readsUnary_term _ _ _ _⟩
  | range field inclusive lo hi =>
    have range := lexes_range lo.unclosed hi.unclosed lo.undivided separable
      (trimSpace_eq_self lo.valid lo.front lo.back) (trimSpace_eq_self hi.valid hi.front hi.back)
    exact ⟨_, (lexes_field field).before range.bounded, readsUnary_range _ _ _ _ _ _⟩

theorem understood_of_written {precedence : Precedence} (written : Written precedence t s)
    (separable : t.Separable) :
    ∃ toks, Lexes Boundary s toks ∧ Understood precedence toks t.meaning.matchesFields := by
  induction written with
  | leaf l => exact understood_leaf l separable
  | parens _ ih =>
    obtain ⟨toks, lexed, disjunction⟩ := ih separable
    exact ⟨_, ((lexes_lparen.before lexed).ended lexes_rparen (by decide)).bounded, disjunction.parens⟩
  | not _ ih =>
    obtain ⟨toks, lexed, unary⟩ := ih separable
    exact ⟨_, lexes_not.before lexed, unary.not⟩
  | andOfNot _ ih =>
    obtain ⟨toks, lexed, unary⟩ := ih separable
    exact ⟨toks, lexed, unary.and⟩
  | and _ _ ihl ihr =>
    obtain ⟨toks, lexed, l⟩ := ihl separable.1
    obtain ⟨toks', lexed', r⟩ := ihr separable.2
    exact ⟨_, (lexed.ended lexes_and (by decide)).before lexed', l.append r (clauseStart_and r.starts)⟩
  | juxtaposed _ _ ihl ihr =>
    obtain ⟨toks, lexed, l⟩ := ihl separable.1
    obtain ⟨toks', lexed', r⟩ := ihr separable.2
    exact ⟨_, (lexed.ended lexes_space (by decide)).before lexed', l.append r r.starts⟩
  | orOfAnd _ ih =>
    obtain ⟨toks, lexed, conjunction⟩ := ih separable
    exact ⟨toks, lexed, conjunction.or⟩
  | or _ _ ihl ihr =>
    obtain ⟨toks, lexed, l⟩ := ihl separable.1
    obtain ⟨toks', lexed', r⟩ := ihr separable.2
    exact ⟨_, (lexed.ended lexes_or (by decide)).before lexed', l.append r⟩

theorem parse_written (separable : t.Separable) (written : Written .or t s) :
    ∃ q, parse s = .ok q ∧ ∀ f, q.matchesFields f = t.meaning.matchesFields f := by
  obtain ⟨toks, lexed, disjunction⟩ := understood_of_written written separable
  have disjunction : ReadsOr toks t.meaning.matchesFields := disjunction
  obtain ⟨q, means, parsed⟩ :=
    disjunction.parse [.eof] (fuelFor (toks ++ [.eof])) (follow_cons (by simp) _) rfl (by simp [peek_cons]) le_rfl
  refine ⟨q, ?_, congrFun means⟩
  rw [Search.parse, lex_of_lexes lexed]
  change (parseOr (fuelFor (toks ++ [.eof])) (toks ++ [.eof]) >>= _) = _
  rw [parsed]
  rfl

/-- With parentheses around every subtree a tree is parsed to a query of its meaning, and every other text of it
matches the same field maps. -/
theorem query_text_meaning (t : Tree) (separable : t.Separable) :
    ∃ q, parse t.parenthesized = .ok q ∧ (∀ f, q.matchesFields f = t.meaning.matchesFields f) ∧
      ∀ s, Written .or t s → ∃ q', parse s = .ok q' ∧ ∀ f, q'.matchesFields f = q.matchesFields f := by
  obtain ⟨q, parsed, means⟩ :=
    parse_written separable (.orOfAnd (.andOfNot (written_parenthesized t)))
  refine ⟨q, parsed, means, fun s written => ?_⟩
  obtain ⟨q', parsed', means'⟩ := parse_written separable written
  exact ⟨q', parsed', fun f => (means' f).trans (means f).symm⟩

end Reading

def utf8 (s : GoString) (sound : validString s ∧ s ≠ []) : Utf8 := ⟨s, sound.1, sound.2⟩

def closedBound (s : GoString)
    (sound : (validString s ∧ s ≠ []) ∧ closer true ∉ s ∧ ¬ lit " TO " <:+: s ∧
    (∀ r ∈ (runes s).head?, isSpace r = false) ∧ ∀ r ∈ (runes s).getLast?, isSpace r = false) : Bound true :=
  ⟨utf8 s sound.1, sound.2.1, sound.2.2.1, sound.2.2.2.1, sound.2.2.2.2⟩

def sampleTerm : Leaf := .literal (some (utf8 (lit "a") (by decide))) (utf8 (lit "1") (by decide))

def sampleWildcard : Leaf :=
  .wildcard none ⟨[.plain ⟨utf8 (lit "b") (by decide), by decide +kernel, by decide +kernel⟩, .star], by simp⟩

def sampleRange : Leaf :=
  .range (utf8 (lit "n") (by decide)) true (closedBound (lit "1") (by decide)) (closedBound (lit "5") (by decide))

def sampleTree : Tree :=
  .or (.and (.leaf sampleTerm) (.not (.leaf sampleWildcard))) (.leaf sampleRange)

theorem sampleTree_written : Written .or sampleTree (lit "\\a:\\1 NOT b* OR \\n:[1 TO 5]") :=
  .or (.orOfAnd (.juxtaposed (.andOfNot (.leaf sampleTerm)) (.andOfNot (.not (.leaf sampleWildcard)))))
    (.orOfAnd (.andOfNot (.leaf sampleRange)))

theorem sample_text_meaning :
    letI : Unicode := ⟨id⟩
    sampleTree.Separable ∧ ∃ q q', parse sampleTree.parenthesized = .ok q ∧
      (∀ f, q.matchesFields f = sampleTree.meaning.matchesFields f) ∧
      parse (lit "\\a:\\1 NOT b* OR \\n:[1 TO 5]") = .ok q' ∧ ∀ f, q'.matchesFields f = q.matchesFields f := by
  let _ : Unicode := ⟨id⟩
  have apart : ¬ lit " TO" <:+ lit "1" := by decide
  have separable : sampleTree.Separable := ⟨⟨trivial, trivial⟩, apart⟩
  obtain ⟨q, parsed, means, others⟩ := query_text_meaning sampleTree separable
  obtain ⟨q', parsed', same⟩ := others _ sampleTree_written
  exact ⟨separable, q, q', parsed, means, parsed', same⟩

def runningTree : Tree :=
  .leaf (.range (utf8 (lit "f") (by decide)) true (closedBound (lit "a TO") (by decide))
    (closedBound (lit "b") (by decide)))

theorem bound_runs_on :
    letI : Unicode := ⟨id⟩
    ∃ q, parse runningTree.parenthesized = .ok q ∧
      ¬ ∀ f, q.matchesFields f = runningTree.meaning.matchesFields f := by
  let _ : Unicode := ⟨id⟩
  refine ⟨.rangeQ { field := lit "f", lo := lit "a", hi := lit "to b", incLo := true, incHi := true },
    by decide +kernel, fun same => ?_⟩
  have differs := same (.ofList [(lit "f", [lit "c"])])
  revert differs
  decide +kernel

end CincServer.Proof.Search
