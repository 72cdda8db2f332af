import CincServer.Lib.Program

/-!
# Requests with a critical section
-/

namespace CincServer.Lib

variable {κ ι σ ε α β γ : Type} {ρ : ι → Type} {p : Program ρ ε α} {s t : σ} {P : α → Prop} {f : α → Program ρ ε β}

inductive Ending {ι : Type} (ρ : ι → Type) (ε α : Type)
  | answer (result : α)
  | within (body : Program ρ ε α)

def Ending.rest : Ending ρ ε α → Program ρ ε α
  | answer a => .ret a
  | within body => body

inductive Phase {ι : Type} (ρ : ι → Type) (ε α : Type)
  | outside (p : Program ρ ε (Ending ρ ε α))
  | inside (p : Program ρ ε α)
  | done (outcome : Except ε α)

def Phase.isInside : Phase ρ ε α → Prop
  | .inside _ => True
  | _ => False

/-- Which sections may be entered beside which, and conditions on when a request enters its section
and makes a call: on the state it finds, and on the requests that are in their section meanwhile. -/
structure Rules (κ ι σ : Type) where
  compatible : κ → κ → Prop
  enters : κ → σ → Prop
  calls : κ → ι → σ → Prop
  beside : κ → ι → κ → Prop

def Rules.lock (compatible : κ → κ → Prop) : Rules κ ι σ :=
  ⟨compatible, fun _ _ => True, fun _ _ _ => True, fun _ _ _ => True⟩

structure Traffic (κ : Type) {ι : Type} (ρ : ι → Type) (ε α σ : Type) where
  state : σ
  requests : List (κ × Phase ρ ε α)

namespace Traffic

def Inside (requests : List (κ × Phase ρ ε α)) (P : κ → Prop) : Prop :=
  ∀ r ∈ requests, r.2.isInside → P r.1

inductive Act (step : (c : ι) → σ → ρ c × σ) (rules : Rules κ ι σ) (others : List (κ × Phase ρ ε α))
    (label : κ) : σ → Phase ρ ε α → σ → Phase ρ ε α → Prop
  | call {s : σ} {c : ι} {next : ρ c → Program ρ ε (Ending ρ ε α)} (ok : rules.calls label c s)
      (beside : Inside others (rules.beside label c)) :
      Act step rules others label s (.outside (.call c next)) (step c s).2 (.outside (next (step c s).1))
  | refuse {s : σ} {e : ε} : Act step rules others label s (.outside (.stop e)) s (.done (.error e))
  | answer {s : σ} {a : α} : Act step rules others label s (.outside (.ret (.answer a))) s (.done (.ok a))
  | enter {s : σ} {body : Program ρ ε α} (ok : rules.enters label s)
      (compatible : Inside others (rules.compatible label)) :
      Act step rules others label s (.outside (.ret (.within body))) s (.inside body)
  | work {s : σ} {c : ι} {next : ρ c → Program ρ ε α} (ok : rules.calls label c s)
      (beside : Inside others (rules.beside label c)) :
      Act step rules others label s (.inside (.call c next)) (step c s).2 (.inside (next (step c s).1))
  | fail {s : σ} {e : ε} : Act step rules others label s (.inside (.stop e)) s (.done (.error e))
  | finish {s : σ} {a : α} : Act step rules others label s (.inside (.ret a)) s (.done (.ok a))

inductive Step (step : (c : ι) → σ → ρ c × σ) (rules : Rules κ ι σ)
    (program : κ → Program ρ ε (Ending ρ ε α)) : Traffic κ ρ ε α σ → Traffic κ ρ ε α σ → Prop
  | arrive {s : σ} {requests : List (κ × Phase ρ ε α)} (label : κ) :
      Step step rules program ⟨s, requests⟩ ⟨s, (label, .outside (program label)) :: requests⟩
  | act {s t : σ} {before after : List (κ × Phase ρ ε α)} {label : κ} {phase phase' : Phase ρ ε α}
      (acts : Act step rules (before ++ after) label s phase t phase') :
      Step step rules program ⟨s, before ++ (label, phase) :: after⟩ ⟨t, before ++ (label, phase') :: after⟩

def Reaches (step : (c : ι) → σ → ρ c × σ) (rules : Rules κ ι σ)
    (program : κ → Program ρ ε (Ending ρ ε α)) (start : σ) (traffic : Traffic κ ρ ε α σ) : Prop :=
  Relation.ReflTransGen (Step step rules program) ⟨start, []⟩ traffic

end Traffic

structure Regime (κ σ : Type) where
  inv : σ → Prop
  tolerates : κ → σ → σ → Prop
  refl : ∀ label s, tolerates label s s
  trans : ∀ label {s t u}, tolerates label s t → tolerates label t u → tolerates label s u

def Regime.still (inv : σ → Prop) : Regime κ σ where
  inv := inv
  tolerates _ s t := t = s
  refl _ _ := rfl
  trans _ _ _ _ first second := second.trans first

namespace Program

def Returns (P : α → Prop) : Program ρ ε α → Prop
  | .ret a => P a
  | .stop _ => True
  | .call _ next => ∀ answer, (next answer).Returns P

theorem returns_pure {a : α} (holds : P a) : (pure a : Program ρ ε α).Returns P := holds

theorem Returns.then {Q : α → Prop} {P : β → Prop}
    (first : p.Returns Q) (rest : ∀ a, Q a → (f a).Returns P) : (p >>= f).Returns P := by
  induction p with
  | ret a => exact rest a first
  | stop e => trivial
  | call c next ih => exact fun answer => ih answer (first answer)

theorem returns_of_forall (all : ∀ a, P a) (p : Program ρ ε α) : p.Returns P := by
  induction p with
  | ret a => exact all a
  | stop e => trivial
  | call c next ih => exact ih

theorem Returns.bind {P : β → Prop} (rest : ∀ a, (f a).Returns P)
    (p : Program ρ ε α) : (p >>= f).Returns P :=
  (returns_of_forall (fun _ => trivial) p : p.Returns fun _ => True).then fun a _ => rest a

end Program

section Contract

variable (step : (c : ι) → σ → ρ c × σ) (rules : Rules κ ι σ) (regime : Regime κ σ)

structure Fine (within : Prop) (label : κ) (c : ι) (s : σ) : Prop where
  inv : regime.inv (step c s).2
  tolerated : ∀ other, (within → rules.compatible label other) → rules.beside label c other →
    regime.tolerates other s (step c s).2

def Free (within : Prop) (label : κ) (c : ι) : Prop :=
  ∀ s, regime.inv s → rules.calls label c s → Fine step rules regime within label c s

/-- Inside a section every call is fine, and what the section ends with has the postcondition,
whatever tolerated steps others take in between. -/
def Secure (label : κ) (post : Except ε α → σ → Prop) : Program ρ ε α → σ → Prop
  | .ret a, s => ∀ s', regime.tolerates label s s' → regime.inv s' → post (.ok a) s'
  | .stop e, s => ∀ s', regime.tolerates label s s' → regime.inv s' → post (.error e) s'
  | .call c next, s => ∀ s', regime.tolerates label s s' → regime.inv s' → rules.calls label c s' →
      Fine step rules regime True label c s' ∧ Secure label post (next (step c s').1) (step c s').2

def Ending.Verified (label : κ) (post : Except ε α → σ → Prop) : Ending ρ ε α → Prop
  | .answer _ => True
  | .within body => ∀ s, regime.inv s → rules.enters label s → Secure step rules regime label post body s

structure Obeys (label : κ) (post : Except ε α → σ → Prop)
    (p : Program ρ ε (Ending ρ ε α)) : Prop where
  free : p.Only (Free step rules regime False label)
  sections : p.Returns (Ending.Verified step rules regime label post)

def Phase.Fits (label : κ) (post : Except ε α → σ → Prop) : Phase ρ ε α → σ → Prop
  | .outside p, _ => Obeys step rules regime label post p
  | .inside p, s => Secure step rules regime label post p s
  | .done _, _ => True

end Contract

section Logic

variable {step : (c : ι) → σ → ρ c × σ} {rules : Rules κ ι σ} {regime : Regime κ σ} {label : κ}
  {post post' : Except ε α → σ → Prop} {s t : σ}

theorem Secure.stable (secure : Secure step rules regime label post p s)
    (tolerated : regime.tolerates label s t) : Secure step rules regime label post p t := by
  cases p with
  | _ => exact fun s' more => secure s' (regime.trans label tolerated more)

theorem secure_of_forall
    (later : ∀ s', regime.tolerates label s s' → regime.inv s' → Secure step rules regime label post p s') :
    Secure step rules regime label post p s := by
  cases p with
  | _ => exact fun s' tolerated inv => later s' tolerated inv s' (regime.refl label s') inv

theorem secure_ite {condition : Prop} [Decidable condition] {q : Program ρ ε α}
    (yes : condition → Secure step rules regime label post p s)
    (no : ¬ condition → Secure step rules regime label post q s) :
    Secure step rules regime label post (if condition then p else q) s := by
  split
  · next holds => exact yes holds
  · next fails => exact no fails

theorem secure_perform {c : ι} {next : ρ c → Program ρ ε α}
    (holds : ∀ s', regime.tolerates label s s' → regime.inv s' → rules.calls label c s' →
      Fine step rules regime True label c s' ∧ Secure step rules regime label post (next (step c s').1) (step c s').2) :
    Secure step rules regime label post (Program.perform c >>= next) s := holds

theorem Secure.bind {p : Program ρ ε β} {f : β → Program ρ ε α} {middle : Except ε β → σ → Prop}
    (first : Secure step rules regime label middle p s)
    (rest : ∀ b s', regime.inv s' → middle (.ok b) s' → Secure step rules regime label post (f b) s')
    (error : ∀ e s', regime.inv s' → middle (.error e) s' → post (.error e) s') :
    Secure step rules regime label post (p >>= f) s := by
  induction p generalizing s with
  | ret b => exact secure_of_forall fun s' tolerated inv => rest b s' inv (first s' tolerated inv)
  | stop e => exact fun s' tolerated inv => error e s' inv (first s' tolerated inv)
  | call c next ih =>
    intro s' tolerated inv ok
    obtain ⟨fine, more⟩ := first s' tolerated inv ok
    exact ⟨fine, ih _ more⟩

theorem Secure.mono (secure : Secure step rules regime label post p s)
    (weaker : ∀ outcome t, regime.inv t → post outcome t → post' outcome t) :
    Secure step rules regime label post' p s := by
  induction p generalizing s with
  | ret | stop => exact fun s' tolerated inv => weaker _ s' inv (secure s' tolerated inv)
  | call c next ih =>
    intro s' tolerated inv ok
    obtain ⟨fine, more⟩ := secure s' tolerated inv ok
    exact ⟨fine, ih _ more⟩

theorem Program.Only.secure (only : p.Only (Free step rules regime True label)) (s : σ) :
    Secure step rules regime label (fun _ _ => True) p s := by
  induction p generalizing s with
  | ret | stop => exact fun _ _ _ => trivial
  | call c next ih =>
    intro s' _ inv ok
    exact ⟨only.1 s' inv ok, ih _ (only.2 _) _⟩

def Guarded (step : (c : ι) → σ → ρ c × σ) (rules : Rules κ ι σ) (regime : Regime κ σ) (label : κ)
    (p : Program ρ ε α) : Prop :=
  ∀ s, regime.inv s → Secure step rules regime label (fun _ _ => True) p s

theorem guarded_modular (step : (c : ι) → σ → ρ c × σ) (rules : Rules κ ι σ) (regime : Regime κ σ)
    (label : κ) :
    Program.Modular fun α (p : Program ρ ε α) => Guarded step rules regime label p where
  pure _ _ _ _ _ _ := trivial
  bind first rest s inv := (first s inv).bind (fun a s' inv' _ => rest a s' inv') fun _ _ _ _ =>
    trivial

theorem Program.Only.guarded (only : p.Only (Free step rules regime True label)) :
    Guarded step rules regime label p := fun s _ => only.secure s

theorem Secure.frame (secure : Secure step rules regime label post p s) (fact : σ → Prop)
    (stable : ∀ s t, regime.tolerates label s t → fact s → fact t)
    (own : p.Only fun c => ∀ s, fact s → fact (step c s).2) (holds : fact s) :
    Secure step rules regime label (fun outcome t => post outcome t ∧ fact t) p s := by
  induction p generalizing s with
  | ret | stop => exact fun s' tolerated inv => ⟨secure s' tolerated inv, stable s s' tolerated holds⟩
  | call c next ih =>
    intro s' tolerated inv ok
    obtain ⟨fine, more⟩ := secure s' tolerated inv ok
    exact ⟨fine, ih _ more (own.2 _) (own.1 s' (stable s s' tolerated holds))⟩

theorem Secure.sequential {quiet : ι → Prop}
    (unnoticed : ∀ c, quiet c → ∀ s t, regime.tolerates label s t →
      (step c t).1 = (step c s).1 ∧ regime.tolerates label (step c s).2 (step c t).2)
    (only : p.Only quiet) (secure : Secure step rules regime label post p s) {alone : σ}
    (same : regime.tolerates label alone s) :
    Secure step rules regime label (fun outcome t => post outcome t ∧
      ∃ ended, p.run step alone = (outcome, ended) ∧ regime.tolerates label ended t) p s := by
  induction p generalizing s alone with
  | ret | stop => exact fun s' tolerated inv =>
    ⟨secure s' tolerated inv, alone, rfl, regime.trans label same tolerated⟩
  | call c next ih =>
    intro s' tolerated inv ok
    obtain ⟨fine, more⟩ := secure s' tolerated inv ok
    obtain ⟨answer, after⟩ := unnoticed c only.1 alone s' (regime.trans label same tolerated)
    refine ⟨fine, ?_⟩
    have rest := ih (step c s').1 (only.2 _) more after
    rw [answer] at rest ⊢
    exact rest

theorem Secure.alone {inv : σ → Prop}
    (secure : Secure step rules (Regime.still inv) label post p s) :
    Secure step rules (Regime.still inv) label (fun outcome t => post outcome t ∧ p.run step s = (outcome, t)) p s := by
  have unnoticed (c : ι) (_ : True) (s t : σ) (same : t = s) :
      (step c t).1 = (step c s).1 ∧ (step c t).2 = (step c s).2 := by
    rw [same]
    exact ⟨rfl, rfl⟩
  refine (secure.sequential unnoticed
    (Program.only_of_forall (fun _ => trivial) p) rfl).mono fun outcome t _ ended => ?_
  obtain ⟨holds, t', ran, same⟩ := ended
  obtain rfl : t = t' := same
  exact ⟨holds, ran⟩

end Logic

variable {phase phase' : Phase ρ ε α} {a : κ × Phase ρ ε α} {before after others : List (κ × Phase ρ ε α)}

namespace Traffic

variable {step : (c : ι) → σ → ρ c × σ} {rules : Rules κ ι σ} {regime : Regime κ σ}
  {program : κ → Program ρ ε (Ending ρ ε α)} {post : κ → Except ε α → σ → Prop}

def Compatible (rules : Rules κ ι σ) (r r' : κ × Phase ρ ε α) : Prop :=
  r.2.isInside → r'.2.isInside → rules.compatible r.1 r'.1

structure Fits (step : (c : ι) → σ → ρ c × σ) (rules : Rules κ ι σ) (regime : Regime κ σ)
    (post : κ → Except ε α → σ → Prop) (traffic : Traffic κ ρ ε α σ) : Prop where
  inv : regime.inv traffic.state
  requests : ∀ r ∈ traffic.requests, r.2.Fits step rules regime r.1 (post r.1) traffic.state
  exclusion : traffic.requests.Pairwise (Compatible rules)

theorem Phase.Fits.stable {label : κ} {post : Except ε α → σ → Prop}
    (fits : phase.Fits step rules regime label post s)
    (tolerated : phase.isInside → regime.tolerates label s t) :
    phase.Fits step rules regime label post t := by
  cases phase with
  | outside p => exact fits
  | inside p => exact Secure.stable fits (tolerated trivial)
  | done outcome => trivial

theorem mem_middle {r : κ × Phase ρ ε α} :
    r ∈ before ++ a :: after ↔ r = a ∨ r ∈ before ++ after := by
  rw [List.mem_append, List.mem_cons, List.mem_append]
  exact or_left_comm

theorem Act.fits {label : κ} {post : Except ε α → σ → Prop}
    (acts : Act step rules others label s phase t phase')
    (inv : regime.inv s) (fits : phase.Fits step rules regime label post s) :
    regime.inv t ∧ phase'.Fits step rules regime label post t ∧
      Inside others fun other =>
        (phase.isInside → rules.compatible label other) → regime.tolerates other s t := by
  cases acts with
  | call ok beside =>
    obtain ⟨free, sections⟩ := fits
    obtain ⟨kept, tolerated⟩ := free.1 s inv ok
    exact ⟨kept, ⟨free.2 _, sections _⟩,
      fun r mem inside _ => tolerated _ nofun (beside r mem inside)⟩
  | work ok beside =>
    obtain ⟨⟨kept, tolerated⟩, more⟩ := fits s (regime.refl label s) inv ok
    exact ⟨kept, more, fun r mem inside compatible =>
      tolerated _ (fun _ => compatible trivial) (beside r mem inside)⟩
  | enter ok compatible => exact ⟨inv, fits.sections s inv ok, fun _ _ _ _ => regime.refl _ s⟩
  | _ => exact ⟨inv, trivial, fun _ _ _ _ => regime.refl _ s⟩

theorem Act.compatible {label : κ} (acts : Act step rules others label s phase t phase')
    (before : ∀ r ∈ others, Compatible rules (label, phase) r) :
    ∀ r ∈ others, Compatible rules (label, phase') r := by
  intro r mem inside inside'
  cases acts with
  | work ok beside => exact before r mem trivial inside'
  | enter ok compatible => exact compatible r mem inside'
  | call | refuse | answer | fail | finish => exact inside.elim

variable (symmetric : ∀ {label other}, rules.compatible label other → rules.compatible other label)

include symmetric in
theorem compatible_middle : (before ++ a :: after).Pairwise (Compatible rules) ↔
      (∀ r ∈ before ++ after, Compatible rules a r) ∧ (before ++ after).Pairwise (Compatible rules) := by
  rw [List.pairwise_middle fun ok inside inside' => symmetric (ok inside' inside),
    List.pairwise_cons]

include symmetric in
theorem Fits.move {traffic traffic' : Traffic κ ρ ε α σ}
    (fits : Fits step rules regime post traffic)
    (obeys : ∀ label, Obeys step rules regime label (post label) (program label))
    (moves : Step step rules program traffic traffic') : Fits step rules regime post traffic' := by
  obtain ⟨inv, requests, exclusion⟩ := fits
  cases moves with
  | arrive label =>
    refine ⟨inv, List.forall_mem_cons.mpr ⟨obeys label, requests⟩,
      List.pairwise_cons.mpr ⟨?_, exclusion⟩⟩
    exact fun _ _ inside => inside.elim
  | @act s t before after label phase phase' acts =>
    obtain ⟨compatible, rest⟩ := (compatible_middle symmetric).mp exclusion
    obtain ⟨kept, own, tolerated⟩ := acts.fits inv (requests _ (mem_middle.mpr (.inl rfl)))
    refine ⟨kept, fun r mem => ?_,
      (compatible_middle symmetric).mpr ⟨acts.compatible compatible, rest⟩⟩
    rcases mem_middle.mp mem with rfl | other
    · exact own
    · refine Phase.Fits.stable (requests r (mem_middle.mpr (.inr other))) fun inside => ?_
      exact tolerated r other inside fun inside' => compatible r other inside' inside

def Succeeded (label : κ) (traffic : Traffic κ ρ ε α σ) : Prop :=
  ∃ a, (label, .done (.ok a)) ∈ traffic.requests

def AllOutside (Q : κ → Program ρ ε (Ending ρ ε α) → Prop) (traffic : Traffic κ ρ ε α σ) : Prop :=
  ∀ r ∈ traffic.requests, ∀ p, r.2 = .outside p → Q r.1 p

theorem AllOutside.move {Q : κ → Program ρ ε (Ending ρ ε α) → Prop}
    {traffic traffic' : Traffic κ ρ ε α σ}
    (all : AllOutside Q traffic) (holds : ∀ label, Q label (program label))
    (goes : ∀ label c next answer, Q label (.call c next) → Q label (next answer))
    (moves : Step step rules program traffic traffic') : AllOutside Q traffic' := by
  cases moves with
  | arrive label =>
    intro r mem p phase
    rcases List.mem_cons.mp mem with rfl | old
    · obtain rfl : program label = p := Phase.outside.inj phase
      exact holds label
    · exact all r old p phase
  | act acts =>
    intro r mem p phase
    rcases mem_middle.mp mem with rfl | other
    · cases acts with
      | call ok beside =>
        obtain rfl := Phase.outside.inj phase
        exact goes _ _ _ _ (all _ (mem_middle.mpr (.inl rfl)) _ rfl)
      | refuse | answer | enter | work | fail | finish => cases phase
    · exact all r (mem_middle.mpr (.inr other)) p phase

variable {later : Regime κ σ} {start : σ} {target : κ} {traffic traffic' : Traffic κ ρ ε α σ}

theorem fits_of_outside (inv : later.inv traffic.state)
    (all : AllOutside (fun label => Obeys step rules later label (post label)) traffic)
    (noneInside : ∀ r ∈ traffic.requests, ¬ r.2.isInside) : Fits step rules later post traffic := by
  refine ⟨inv, fun r mem => ?_, ?_⟩
  · obtain ⟨label, phase⟩ := r
    cases phase with
    | outside p => exact all _ mem p rfl
    | inside p => exact (noneInside _ mem trivial).elim
    | done outcome => trivial
  · exact List.pairwise_iff_forall_sublist.mpr fun {r r'} sub inside =>
      (noneInside r (sub.subset List.mem_cons_self) inside).elim

theorem Succeeded.cases (succeeded : Succeeded target traffic')
    (moves : Step step rules program traffic traffic')
    (sections : AllOutside (fun label p => label = target → p.Returns fun ending => ∃ body, ending = .within body)
      traffic) :
    Succeeded target traffic ∨
      ∃ before after a, traffic.requests = before ++ (target, .inside (.ret a)) :: after ∧
      traffic' = ⟨traffic.state, before ++ (target, .done (.ok a)) :: after⟩ := by
  obtain ⟨a, mem⟩ := succeeded
  cases moves with
  | arrive label =>
    rcases List.mem_cons.mp mem with same | old
    · cases same
    · exact .inl ⟨a, old⟩
  | @act s t before after label phase phase' acts =>
    rcases mem_middle.mp mem with same | other
    · obtain ⟨rfl, rfl⟩ := Prod.mk.inj same
      cases acts with
      | answer =>
        obtain ⟨body, ending⟩ := sections _ (mem_middle.mpr (.inl rfl)) _ rfl rfl
        cases ending
      | finish => exact .inr ⟨before, after, a, rfl, rfl⟩
    · exact .inl ⟨a, mem_middle.mpr (.inr other)⟩

include symmetric in
theorem Reaches.established (regime later : Regime κ σ)
    (reached : Reaches step rules program start traffic)
    (obeys : ∀ label, Obeys step rules regime label (post label) (program label))
    (obeysLater : ∀ label, Obeys step rules later label (post label) (program label))
    (alone : ∀ label, ¬ rules.compatible target label)
    (sections : (program target).Returns fun ending => ∃ body, ending = .within body)
    (establishes : ∀ a s, regime.inv s → post target (.ok a) s → later.inv s)
    (initial : regime.inv start) (succeeded : Succeeded target traffic) :
    later.inv traffic.state := by
  suffices all : Fits step rules regime post traffic ∧
      AllOutside (fun label p => Obeys step rules later label (post label) p ∧
        (label = target → p.Returns fun ending => ∃ body, ending = .within body)) traffic ∧
      (Succeeded target traffic → Fits step rules later post traffic) from (all.2.2 succeeded).inv
  clear succeeded
  induction reached with
  | refl => exact ⟨⟨initial, nofun, List.Pairwise.nil⟩, nofun, fun ⟨_, mem⟩ => nomatch mem⟩
  | @tail traffic traffic' _ moves ih =>
    obtain ⟨fits, outside, before⟩ := ih
    have outside' := outside.move (fun label => ⟨obeysLater label, fun same => same ▸ sections⟩)
      (fun _ _ _ _ ⟨obeys, within⟩ => ⟨⟨obeys.free.2 _, obeys.sections _⟩, fun same => within same _⟩) moves
    refine ⟨fits.move symmetric obeys moves, outside', fun succeeded => ?_⟩
    rcases succeeded.cases moves (fun r mem p phase => (outside r mem p phase).2) with already | ⟨front, back, a, inside, rfl⟩
    · exact (before already).move symmetric obeysLater moves
    · -- nobody else is in its section when the target leaves its own
      have own := fits.requests (target, .inside (.ret a)) (by rw [inside]; exact mem_middle.mpr (.inl rfl))
      refine fits_of_outside ?_ (fun r mem p phase => (outside' r mem p phase).1) fun r mem => ?_
      · exact establishes a _ fits.inv (own _ (regime.refl target _) fits.inv)
      · rcases mem_middle.mp mem with rfl | other
        · exact id
        · have exclusion := fits.exclusion
          rw [inside, compatible_middle symmetric] at exclusion
          exact fun isInside => alone r.1 (exclusion.1 r other trivial isInside)

end Traffic

/-! ## Schedules -/

class Rules.Checked (rules : Rules κ ι σ) where
  compatible : ∀ label other, Decidable (rules.compatible label other)
  enters : ∀ label s, Decidable (rules.enters label s)
  calls : ∀ label c s, Decidable (rules.calls label c s)
  beside : ∀ label c other, Decidable (rules.beside label c other)

instance (compatible : κ → κ → Prop)
    [DecidableRel compatible] : (Rules.lock compatible : Rules κ ι σ).Checked where
  compatible label other := inferInstanceAs (Decidable (compatible label other))
  enters _ _ := .isTrue trivial
  calls _ _ _ := .isTrue trivial
  beside _ _ _ := .isTrue trivial

namespace Traffic

instance : DecidablePred (Phase.isInside : Phase ρ ε α → Prop)
  | .outside _ => .isFalse id
  | .inside _ => .isTrue trivial
  | .done _ => .isFalse id

instance (requests : List (κ × Phase ρ ε α)) (P : κ → Prop)
    [DecidablePred P] : Decidable (Inside requests P) :=
  inferInstanceAs (Decidable (∀ r ∈ requests, r.2.isInside → P r.1))

section Play

variable (step : (c : ι) → σ → ρ c × σ) (rules : Rules κ ι σ) [checked : rules.Checked]
  (program : κ → Program ρ ε (Ending ρ ε α))

def moveOf (others : List (κ × Phase ρ ε α)) (label : κ) (s : σ) :
    Phase ρ ε α → Option (σ × Phase ρ ε α)
  | .outside (.call c next) =>
    let _ := checked.calls
    let _ := checked.beside
    if rules.calls label c s ∧ Inside others (rules.beside label c) then
      some ((step c s).2, .outside (next (step c s).1))
    else none
  | .outside (.stop e) => some (s, .done (.error e))
  | .outside (.ret (.answer a)) => some (s, .done (.ok a))
  | .outside (.ret (.within body)) =>
    let _ := checked.enters
    let _ := checked.compatible
    if rules.enters label s ∧ Inside others (rules.compatible label) then some (s, .inside body) else none
  | .inside (.call c next) =>
    let _ := checked.calls
    let _ := checked.beside
    if rules.calls label c s ∧ Inside others (rules.beside label c) then
      some ((step c s).2, .inside (next (step c s).1))
    else none
  | .inside (.stop e) => some (s, .done (.error e))
  | .inside (.ret a) => some (s, .done (.ok a))
  | .done _ => none

def advance (traffic : Traffic κ ρ ε α σ) (index : Nat) : Traffic κ ρ ε α σ :=
  match traffic.requests[index]? with
  | none => traffic
  | some (label, phase) =>
    let before := traffic.requests.take index
    let after := traffic.requests.drop (index + 1)
    match moveOf step rules (before ++ after) label traffic.state phase with
    | none => traffic
    | some (s, phase') => ⟨s, before ++ (label, phase') :: after⟩

inductive Event (κ : Type)
  | arrive (label : κ)
  | move (index : Nat)

def play (traffic : Traffic κ ρ ε α σ) : Event κ → Traffic κ ρ ε α σ
  | .arrive label => ⟨traffic.state, (label, .outside (program label)) :: traffic.requests⟩
  | .move index => advance step rules traffic index

def playAll (start : σ) (events : List (Event κ)) : Traffic κ ρ ε α σ :=
  events.foldl (play step rules program) ⟨start, []⟩

end Play

variable {step : (c : ι) → σ → ρ c × σ} {rules : Rules κ ι σ} [checked : rules.Checked]
  {program : κ → Program ρ ε (Ending ρ ε α)}

theorem moveOf_acts {others : List (κ × Phase ρ ε α)} {label : κ} {s t : σ}
    {phase phase' : Phase ρ ε α}
    (moves : moveOf step rules others label s phase = some (t, phase')) :
    Act step rules others label s phase t phase' := by
  match phase with
  | .outside (.call c next) =>
    obtain ⟨⟨ok, beside⟩, same⟩ := Option.ite_none_right_eq_some.mp moves
    obtain ⟨rfl, rfl⟩ := Prod.mk.inj (Option.some.inj same)
    exact .call ok beside
  | .outside (.stop e) =>
    obtain ⟨rfl, rfl⟩ := Prod.mk.inj (Option.some.inj moves)
    exact .refuse
  | .outside (.ret (.answer a)) =>
    obtain ⟨rfl, rfl⟩ := Prod.mk.inj (Option.some.inj moves)
    exact .answer
  | .outside (.ret (.within body)) =>
    obtain ⟨⟨ok, compatible⟩, same⟩ := Option.ite_none_right_eq_some.mp moves
    obtain ⟨rfl, rfl⟩ := Prod.mk.inj (Option.some.inj same)
    exact .enter ok compatible
  | .inside (.call c next) =>
    obtain ⟨⟨ok, beside⟩, same⟩ := Option.ite_none_right_eq_some.mp moves
    obtain ⟨rfl, rfl⟩ := Prod.mk.inj (Option.some.inj same)
    exact .work ok beside
  | .inside (.stop e) =>
    obtain ⟨rfl, rfl⟩ := Prod.mk.inj (Option.some.inj moves)
    exact .fail
  | .inside (.ret a) =>
    obtain ⟨rfl, rfl⟩ := Prod.mk.inj (Option.some.inj moves)
    exact .finish
  | .done outcome => cases moves

theorem advance_cases (step : (c : ι) → σ → ρ c × σ) (rules : Rules κ ι σ) [rules.Checked]
    (traffic : Traffic κ ρ ε α σ) (index : Nat) :
    advance step rules traffic index = traffic ∨
      ∃ before after label phase phase' t, traffic.requests = before ++ (label, phase) :: after ∧
        Act step rules (before ++ after) label traffic.state phase t phase' ∧
        advance step rules traffic index = ⟨t, before ++ (label, phase') :: after⟩ := by
  unfold advance
  cases found : traffic.requests[index]? with
  | none => exact .inl rfl
  | some r =>
    obtain ⟨label, phase⟩ := r
    obtain ⟨inRange, here⟩ := List.getElem?_eq_some_iff.mp found
    have split : traffic.requests =
        traffic.requests.take index ++ (label, phase) :: traffic.requests.drop (index + 1) := by
      rw [← here, List.getElem_cons_drop, List.take_append_drop]
    dsimp only
    cases moves : moveOf step rules (traffic.requests.take index ++ traffic.requests.drop (index + 1)) label
        traffic.state phase with
    | none => exact .inl rfl
    | some moved => exact .inr ⟨_, _, label, phase, moved.2, moved.1, split, moveOf_acts moves, rfl⟩

theorem reaches_play (start : σ) (events : List (Event κ)) :
    Reaches step rules program start (playAll step rules program start events) := by
  suffices all : ∀ traffic, Relation.ReflTransGen (Step step rules program) traffic
      (events.foldl (play step rules program) traffic) from all _
  induction events with
  | nil => exact fun _ => .refl
  | cons event events ih =>
    intro traffic
    refine Relation.ReflTransGen.trans ?_ (ih _)
    cases event with
    | arrive label => exact .single (.arrive label)
    | move index =>
      rcases advance_cases step rules traffic index with
        same | ⟨before, after, label, phase, phase', t, split, acts, moved⟩
      · rw [play, same]
      · rw [play, moved]
        obtain ⟨s, requests⟩ := traffic
        obtain rfl : requests = before ++ (label, phase) :: after := split
        exact .single (.act acts)

def arrivals (events : List (Event κ)) : List κ :=
  (events.filterMap fun event => match event with
    | .arrive label => some label
    | .move _ => none).reverse

theorem labels_play (start : σ) (events : List (Event κ)) :
    (playAll step rules program start events).requests.map Prod.fst = arrivals events := by
  suffices all : ∀ traffic : Traffic κ ρ ε α σ, (events.foldl (play step rules program) traffic).requests.map Prod.fst =
      arrivals events ++ traffic.requests.map Prod.fst from (all _).trans (List.append_nil _)
  induction events with
  | nil => exact fun _ => rfl
  | cons event events ih =>
    intro traffic
    rw [List.foldl_cons, ih]
    cases event with
    | arrive label => simp [play, arrivals]
    | move index =>
      have labels : (advance step rules traffic index).requests.map Prod.fst = traffic.requests.map Prod.fst := by
        rcases advance_cases step rules traffic index with
          same | ⟨before, after, label, phase, phase', t, split, -, moved⟩
        · rw [same]
        · simp [moved, split]
      simp [play, arrivals, labels]

def succeededAt (traffic : Traffic κ ρ ε α σ) (index : Nat) : Bool :=
  match traffic.requests[index]? with
  | some (_, .done (.ok _)) => true
  | _ => false

theorem succeeded_play {start : σ} {events : List (Event κ)} {label : κ} (index : Nat)
    (arrived : (arrivals events)[index]? = some label)
    (succeeds : succeededAt (playAll step rules program start events) index) :
    Succeeded label (playAll step rules program start events) := by
  have labels : (playAll step rules program start events).requests.map Prod.fst = arrivals events :=
    labels_play start events
  rw [← labels, List.getElem?_map] at arrived
  unfold succeededAt at succeeds
  split at succeeds
  · next other a found =>
    obtain rfl : other = label := by simpa [found] using arrived
    exact ⟨a, List.mem_of_getElem? found⟩
  · cases succeeds

end Traffic

end CincServer.Lib
