import ClauseSharing.Proofs.Dimacs.Callbacks

/-!
Reading several texts into one builder.

A text is any list of tokens, with a fault behind them if it breaks off there. It is cut into
clauses by their ends and by its own (`splitClauses`). A builder that reads texts one after the
other, also after errors, makes of each clause what it is: it stores it, counts it as a tautology,
assigns it as a unit, or is refuted by it (`Holds`). One reading adds the clauses of the text, of
which the first begins with the pending literals (`FormulaBuilder.Collects.readText`).

A text that has been read to its end leaves no literals pending. A text that is cut short does, if a
clause has been begun: nothing takes them back, and they become part of the next clause. So the main
statement, `FormulaBuilder.reads_keep_texts_apart`, is about texts that are cut short between two
clauses only. Without that a formula with the empty clause can make a worker that is not refuted
(`FormulaBuilder.reads_of_openClause`).
-/

namespace ClauseSharing

/-! ## Clauses of a text -/

/-- The clauses that the tokens end, if the first one has begun with the literals in `opened`, and
the literals after the last end. -/
def splitClauses (opened : List Int32) : List Dimacs.Token → List (List Int32) × List Int32
  | [] => ([], opened)
  | .literal value :: rest => splitClauses (opened ++ [value]) rest
  | .clauseEnd :: rest =>
    let (closed, unfinished) := splitClauses [] rest
    (opened :: closed, unfinished)
  | .comment :: rest => splitClauses opened rest
  | .problem _ _ _ :: rest => splitClauses opened rest

theorem splitClauses_cons (opened : List Int32) (t : Dimacs.Token) (rest : List Dimacs.Token) :
    splitClauses opened (t :: rest) =
      ((splitClauses opened [t]).1 ++ (splitClauses (splitClauses opened [t]).2 rest).1,
        (splitClauses (splitClauses opened [t]).2 rest).2) := by
  cases t <;> rfl

/-! ## Units -/

/-- One of the clauses is the unit, up to repetitions. -/
def HasUnit (clauses : List (List Literal)) (l : Literal) : Prop :=
  ∃ literals ∈ clauses, normalizedClause literals = [l]

theorem HasUnit.append {clauses : List (List Literal)} {l : Literal} (h : HasUnit clauses l)
    (more : List (List Literal)) : HasUnit (clauses ++ more) l := by
  obtain ⟨literals, hmem, hunit⟩ := h
  exact ⟨literals, List.mem_append_left more hmem, hunit⟩

/-- Whatever is assigned is one of the units, and what has refuted the formula is the empty clause
or two opposite units. -/
structure Units (clauses : List (List Literal)) (c : Core) : Prop where
  assigned : ∀ e ∈ c.assignment.trail, HasUnit clauses e.literal
  refuted : c.refuted = true →
    [] ∈ clauses ∨ ∃ l, HasUnit clauses l ∧ HasUnit clauses l.negate

namespace Units

variable {clauses : List (List Literal)} {c : Core} {literals : List Literal}

theorem append (h : Units clauses c) (more : List (List Literal)) : Units (clauses ++ more) c where
  assigned e he := (h.assigned e he).append more
  refuted hrefuted := (h.refuted hrefuted).imp (List.mem_append_left more)
    fun ⟨l, hl, hneg⟩ => ⟨l, hl.append more, hneg.append more⟩

/-- Asserting the normal form of one more clause. -/
theorem assertClause (h : Units clauses c) (hbacked : c.assignment.Backed)
    (literals : List Literal) :
    Units (clauses ++ [literals]) (c.assertClause (normalizedClause literals)) := by
  have hlast : literals ∈ clauses ++ [literals] := List.mem_append_right clauses List.mem_cons_self
  have hold := h.append [literals]
  unfold Core.assertClause
  split
  · next hempty =>
    refine ⟨hold.assigned, fun _ => .inl ?_⟩
    have hnil : literals = [] := List.eq_nil_iff_forall_not_mem.mpr fun l hl =>
      List.not_mem_nil (hempty ▸ mem_normalizedClause.mpr hl)
    rw [hnil]
    exact List.mem_append_right clauses List.mem_cons_self
  · next l hunit =>
    have hnew : HasUnit (clauses ++ [literals]) l := ⟨literals, hlast, hunit⟩
    rcases c.assign_cases l .propagation with ⟨-, heq⟩ | ⟨hvalue, heq⟩ | ⟨-, heq⟩
    all_goals rw [heq]
    · exact hold
    · -- The opposite value came from the opposite unit.
      refine ⟨hold.assigned, fun _ => .inr ⟨l, hnew, ?_⟩⟩
      obtain ⟨e, he, hliteral⟩ := hbacked l.var _ hvalue
      have hnegate : e.literal = l.negate := by
        rw [hliteral, Literal.eq_iff, Literal.var_ofVariable, Literal.isPositive_ofVariable,
          Literal.var_negate, Literal.isPositive_negate]
        exact ⟨rfl, rfl⟩
      exact hnegate ▸ hold.assigned e he
    · refine ⟨fun e he => ?_, hold.refuted⟩
      rcases Array.mem_push.mp he with he | rfl
      · exact hold.assigned e he
      · exact hnew
  · refine ⟨?_, fun hrefuted => hold.refuted ?_⟩
    · rw [Core.assignment_insertClause]
      exact hold.assigned
    · exact (Core.refuted_insertClause ..).symm.trans hrefuted

end Units

/-! ## Clauses of a worker -/

/-- The state of a worker stands for the clauses: the valuations that it admits are those that
satisfy them, tautologies are counted, clauses of two literals or more are stored in order and in
their normal form, and what is assigned or refuted comes from units and the empty clause. -/
structure Holds (clauses : List (List Literal)) (c : Core) (tautologies : Nat) : Prop where
  represents : Represents c.size clauses c tautologies
  units : Units clauses c

namespace Holds

variable {clauses : List (List Literal)} {c : Core} {tautologies : Nat}

theorem empty : Holds [] .empty 0 where
  represents := .start 0
  units := ⟨nofun, nofun⟩

/-- More variables do not matter. -/
theorem register (h : Holds clauses c tautologies) (n : Nat) :
    Holds clauses (c.register n) tautologies where
  represents := {
    size_eq := rfl
    level_eq := h.represents.level_eq
    backed := h.represents.backed.register n
    models_iff μ := by
      rw [← h.represents.models_iff μ]
      exact ⟨fun hc => ⟨hc.not_refuted, hc.trail, hc.clauses⟩,
        fun hc => ⟨hc.not_refuted, hc.trail, hc.clauses⟩⟩
    clauses_eq := h.represents.clauses_eq
    tautologies_eq := h.represents.tautologies_eq }
  units := ⟨h.units.assigned, h.units.refuted⟩

theorem tautology (h : Holds clauses c tautologies) {literals : List Literal}
    (hneighbours : hasNeighbours (normalizedClause literals) = true) :
    Holds (clauses ++ [literals]) c (tautologies + 1) where
  represents := h.represents.tautology hneighbours
  units := h.units.append [literals]

theorem clause (h : Holds clauses c tautologies) {literals : List Literal}
    (hneighbours : hasNeighbours (normalizedClause literals) = false) :
    Holds (clauses ++ [literals]) (c.assertClause (normalizedClause literals)) tautologies where
  represents := by
    rw [Core.size_assertClause]
    exact h.represents.clause hneighbours
  units := h.units.assertClause h.represents.backed literals

end Holds

/-! ## The builder -/

namespace FormulaBuilder

variable {K : Type} [Scalar K] {settings : Settings K} {b b' : FormulaBuilder K}
  {opened : List Int32} {clauses : List (List Int32)}

/-- The worker of the builder stands for the clauses, and the literals in `opened` are pending. -/
structure Collects (b : FormulaBuilder K) (opened : List Int32) (clauses : List (List Int32)) :
    Prop where
  current_eq : b.current.toList = opened.map Literal.ofNumber
  holds : Holds (clauses.map (·.map Literal.ofNumber)) b.worker.core b.tautologies

namespace Collects

theorem problem (h : b.Collects opened clauses) {n : Nat} {answer : Except IntakeError Unit}
    (hb : b.problem n = .ok (b', answer)) : b'.Collects opened clauses := by
  obtain ⟨⟨w, r⟩, hadd, hb⟩ := bind_eq_ok_iff.mp hb
  have hholds : Holds (clauses.map (·.map Literal.ofNumber)) w.core b.tautologies := by
    rcases Worker.addVariables_cases hadd with rfl | ⟨-, _, -, rfl⟩
    · exact h.holds
    · exact h.holds.register n
  cases r <;> cases hb <;> exact ⟨h.current_eq, hholds⟩

omit [Scalar K] in
/-- A literal that is taken joins the pending ones. -/
theorem literal (h : b.Collects opened clauses) {value : Int32} {answer : Except IntakeError Unit}
    (hb : b.literal value = .ok (b', answer)) :
    (∃ e, answer = .error e ∧ b'.Collects opened clauses) ∨
    (answer = .ok () ∧ b'.Collects (opened ++ [value]) clauses) := by
  have nonzero : value ≠ 0 := by
    rintro rfl
    cases hb
  rcases literal_cases (b := b) nonzero with
    ⟨e, hrefused⟩ | ⟨-, htaken⟩ | ⟨-, breach, hbreach⟩
  · cases hrefused.symm.trans hb
    exact .inl ⟨e, rfl, h⟩
  · cases htaken.symm.trans hb
    refine .inr ⟨rfl, ?_, h.holds⟩
    rw [Array.toList_push, h.current_eq, List.map_append, List.map_singleton]
  · cases hbreach.symm.trans hb

/-- The end of a clause closes it over the pending literals. -/
theorem endClause (h : b.Collects opened clauses) {answer : Except IntakeError Unit}
    (hb : b.endClause = .ok (b', answer)) :
    (∃ e, answer = .error e ∧ b'.Collects opened clauses) ∨
    (answer = .ok () ∧ b'.Collects [] (clauses ++ [opened])) := by
  have hmap : (clauses ++ [opened]).map (·.map Literal.ofNumber) =
      clauses.map (·.map Literal.ofNumber) ++ [opened.map Literal.ofNumber] := List.map_append
  rcases b.endClause_cases with ⟨-, hend⟩ | ⟨hneighbours, hend⟩ | ⟨hneighbours, hend⟩
  all_goals rw [hend] at hb
  · cases hb
    exact .inl ⟨_, rfl, h⟩
  · cases hb
    refine .inr ⟨rfl, rfl, ?_⟩
    rw [hmap]
    exact h.holds.tautology (h.current_eq ▸ hneighbours)
  · rcases hassert : b.worker.assertClause (normalizedClause b.current.toList) with
      breach | ⟨w, r⟩
    all_goals rw [hassert] at hb
    · cases hb
    obtain ⟨hcore, position, rfl⟩ :=
      Worker.assertClause_eq_ok h.holds.represents.level_eq hassert
    cases hb
    refine .inr ⟨rfl, rfl, ?_⟩
    rw [hmap, hcore, h.current_eq]
    exact h.holds.clause (h.current_eq ▸ hneighbours)

/-- What is done for one token, if it is not refused, shows in the clauses that it ends and in the
literals that are pending afterwards. -/
theorem token (h : b.Collects opened clauses) {t : Dimacs.Token} {answer : Except IntakeError Unit}
    (hb : b.token t = .ok (b', answer)) :
    (∃ e, answer = .error e ∧ b'.Collects opened clauses) ∨
    (answer = .ok () ∧
      b'.Collects (splitClauses opened [t]).2 (clauses ++ (splitClauses opened [t]).1)) := by
  cases t with
  | comment =>
    cases hb
    exact .inr ⟨rfl, (List.append_nil clauses).symm ▸ h⟩
  | problem start n m =>
    have h' := h.problem hb
    cases answer with
    | error e => exact .inl ⟨e, rfl, h'⟩
    | ok _ => exact .inr ⟨rfl, (List.append_nil clauses).symm ▸ h'⟩
  | literal value =>
    refine (h.literal hb).imp id fun ⟨hanswer, h'⟩ => ⟨hanswer, ?_⟩
    exact (List.append_nil clauses).symm ▸ h'
  | clauseEnd => exact h.endClause hb

end Collects

/-! ## Texts -/

variable {F : Type}

/-- The tokens that a builder takes before it refuses one. -/
def taken (b : FormulaBuilder K) : List Dimacs.Token → List Dimacs.Token
  | [] => []
  | t :: rest =>
    match b.token t with
    | .ok (b', .ok ()) => t :: b'.taken rest
    | _ => []

/-- The clauses of a text, of which the tokens were taken before it was answered so, and the
literals that stay pending. Only a text that was read to its end closes a clause by it. -/
def textClauses (opened : List Int32) (taken : List Dimacs.Token) :
    Except (TextError F) Unit → List (List Int32) × List Int32
  | .ok () =>
    (formulaClauses (splitClauses opened taken).1 (splitClauses opened taken).2, [])
  | .error _ => splitClauses opened taken

theorem taken_isPrefix (b : FormulaBuilder K) (tokens : List Dimacs.Token) :
    b.taken tokens <+: tokens := by
  induction tokens generalizing b with
  | nil => exact List.prefix_rfl
  | cons t rest ih =>
    rw [taken]
    split
    · exact List.cons_prefix_cons.mpr ⟨rfl, ih _⟩
    · exact List.nil_prefix

namespace Collects

theorem tokens (h : b.Collects opened clauses) {tokens : List Dimacs.Token}
    {answer : Except IntakeError Unit} (hb : b.tokens tokens = .ok (b', answer)) :
    b'.Collects (splitClauses opened (b.taken tokens)).2
        (clauses ++ (splitClauses opened (b.taken tokens)).1) ∧
      (answer = .ok () → b.taken tokens = tokens) := by
  induction tokens generalizing b opened clauses with
  | nil =>
    cases hb
    exact ⟨(List.append_nil clauses).symm ▸ h, fun _ => rfl⟩
  | cons t rest ih =>
    obtain ⟨⟨b₁, answer₁⟩, htoken, hb⟩ := bind_eq_ok_iff.mp hb
    rcases h.token htoken with ⟨e, rfl, h₁⟩ | ⟨rfl, h₁⟩
    · cases hb
      have hnone : b.taken (t :: rest) = [] := by rw [taken, htoken]
      rw [hnone]
      exact ⟨(List.append_nil clauses).symm ▸ h₁, nofun⟩
    · have hsome : b.taken (t :: rest) = t :: b₁.taken rest := by rw [taken, htoken]
      obtain ⟨hrest, hall⟩ := ih h₁ hb
      rw [hsome, splitClauses_cons, ← List.append_assoc]
      exact ⟨hrest, fun hanswer => congrArg (t :: ·) (hall hanswer)⟩

/-- The end of a text closes the clause over the pending literals, if there are any. -/
theorem finish (h : b.Collects opened clauses) {answer : Except IntakeError Unit}
    (hb : b.finish = .ok (b', answer)) :
    (∃ e, answer = .error e ∧ b'.Collects opened clauses) ∨
    (answer = .ok () ∧ b'.Collects [] (formulaClauses clauses opened)) := by
  unfold FormulaBuilder.finish at hb
  have hempty : b.current.isEmpty = true ↔ opened = [] := by
    rw [Array.isEmpty_iff, ← Array.toList_eq_nil_iff, h.current_eq, List.map_eq_nil_iff]
  split at hb
  · next hnone =>
    cases hb
    obtain rfl := hempty.mp hnone
    rw [formulaClauses, if_pos rfl, List.append_nil]
    exact .inr ⟨rfl, h⟩
  · next hsome =>
    rw [formulaClauses, if_neg (hempty.not.mp hsome)]
    exact h.endClause hb

/-- Reading a text adds its clauses, of which the first begins with the pending literals. -/
theorem readText (h : b.Collects opened clauses) {text : Dimacs.Text F}
    {answer : Except (TextError F) Unit} (hb : b.readText text = .ok (b', answer)) :
    b'.Collects (textClauses opened (b.taken text.tokens) answer).2
        (clauses ++ (textClauses opened (b.taken text.tokens) answer).1) ∧
      (answer = .ok () → b.taken text.tokens = text.tokens) := by
  obtain ⟨tokens, fault⟩ := text
  obtain ⟨⟨b₁, answer₁⟩, htokens, hb⟩ := bind_eq_ok_iff.mp hb
  obtain ⟨h₁, hall⟩ := h.tokens htokens
  cases answer₁ with
  | error e =>
    cases hb
    exact ⟨h₁, nofun⟩
  | ok _ =>
    match fault with
    | some fault =>
      cases hb
      exact ⟨h₁, nofun⟩
    | none =>
      obtain ⟨⟨b₂, answer₂⟩, hfinish, hb⟩ := bind_eq_ok_iff.mp hb
      rcases h₁.finish hfinish with ⟨e, rfl, h₂⟩ | ⟨rfl, h₂⟩
      · cases hb
        exact ⟨h₂, nofun⟩
      · cases hb
        refine ⟨?_, fun _ => hall rfl⟩
        rw [formulaClauses, List.append_assoc] at h₂
        exact h₂

end Collects

/-- Reads texts one after the other, whatever the builder answers, up to the first breach. -/
def reads (b : FormulaBuilder K) :
    List (Dimacs.Text F) → Except Breach (FormulaBuilder K × List (Except (TextError F) Unit))
  | [] => .ok (b, [])
  | text :: rest => do
    let (b, answer) ← b.readText text
    let (b, answers) ← b.reads rest
    return (b, answer :: answers)

/-- The literals that a text leaves pending, if none were before. -/
def leftOpen (b : FormulaBuilder K) (text : Dimacs.Text F) : List Int32 :=
  match b.readText text with
  | .ok (_, answer) => (textClauses [] (b.taken text.tokens) answer).2
  | .error _ => []

/-- The builder after a text. -/
def afterText (b : FormulaBuilder K) (text : Dimacs.Text F) : FormulaBuilder K :=
  match b.readText text with
  | .ok (b', _) => b'
  | .error _ => b

/-- Every text that is cut short and that another one follows is cut between two clauses: no literal
has been taken since the last clause end. -/
def CutsBetweenClauses (b : FormulaBuilder K) : List (Dimacs.Text F) → Prop
  | [] => True
  | text :: rest =>
    (rest = [] ∨ b.leftOpen text = []) ∧ (b.afterText text).CutsBetweenClauses rest

instance decidableCutsBetweenClauses (b : FormulaBuilder K) :
    (texts : List (Dimacs.Text F)) → Decidable (b.CutsBetweenClauses texts)
  | [] => isTrue trivial
  | text :: rest =>
    -- What is taken of a text depends on the texts before it.
    have := decidableCutsBetweenClauses (b.afterText text) rest
    inferInstanceAs (Decidable (_ ∧ _))

/-- The clauses are those of the text alone: if it was read to its end, all that stand between two
clause ends or at its own end, and if not, those that were ended before it was cut short. -/
def OwnClauses : Dimacs.Text F × Except (TextError F) Unit → List (List Int32) → Prop
  | (text, .ok ()), clauses =>
    clauses = formulaClauses (splitClauses [] text.tokens).1 (splitClauses [] text.tokens).2
  | (text, .error _), clauses =>
    ∃ taken, taken <+: text.tokens ∧ clauses = (splitClauses [] taken).1

theorem Collects.reads {texts : List (Dimacs.Text F)} {answers : List (Except (TextError F) Unit)}
    (h : b.Collects opened clauses) (hopened : texts = [] ∨ opened = [])
    (hb : b.reads texts = .ok (b', answers)) (hcuts : b.CutsBetweenClauses texts) :
    answers.length = texts.length ∧
      ∃ own left, List.Forall₂ OwnClauses (texts.zip answers) own ∧
        b'.Collects left (clauses ++ own.flatten) := by
  induction texts generalizing b opened clauses answers with
  | nil =>
    cases hb
    exact ⟨rfl, [], opened, .nil, (List.append_nil clauses).symm ▸ h⟩
  | cons text rest ih =>
    obtain rfl := hopened.resolve_left (List.cons_ne_nil text rest)
    obtain ⟨⟨b₁, answer⟩, hread, hb⟩ := bind_eq_ok_iff.mp hb
    obtain ⟨⟨b₂, answers'⟩, hreads, hb⟩ := bind_eq_ok_iff.mp hb
    cases hb
    let added := textClauses [] (b.taken text.tokens) answer
    obtain ⟨hcut, hcuts⟩ := hcuts
    have hleft : b.leftOpen text = added.2 := by rw [leftOpen, hread]
    have hafter : b.afterText text = b₁ := by rw [afterText, hread]
    rw [hleft] at hcut
    rw [hafter] at hcuts
    obtain ⟨h₁, hall⟩ := h.readText hread
    obtain ⟨hlength, own, left, hown, h'⟩ := ih h₁ hcut hreads hcuts
    have htext : OwnClauses (text, answer) added.1 := by
      cases answer with
      | ok _ =>
        show formulaClauses _ _ = _
        rw [hall rfl]
      | error e => exact ⟨_, b.taken_isPrefix _, rfl⟩
    refine ⟨congrArg (· + 1) hlength, added.1 :: own, left, .cons htext hown, ?_⟩
    rw [List.flatten_cons, ← List.append_assoc]
    exact h'

/-! ## Main statement -/

/-- Let a new builder read any texts one after the other, with any faults and also after errors, of
which none but the last one is cut short within a clause that it has begun. Then the worker stands
for the clauses of the texts, each text taken for itself: whatever is stored, assigned as a unit,
empty, or counted as a tautology consists of the literals between two clause ends of one text, or
between one and the border of that text. -/
theorem reads_keep_texts_apart (h₀ : create settings = .ok b) {texts : List (Dimacs.Text F)}
    {answers : List (Except (TextError F) Unit)} (hreads : b.reads texts = .ok (b', answers))
    (hcuts : b.CutsBetweenClauses texts) :
    answers.length = texts.length ∧
      ∃ own, List.Forall₂ OwnClauses (texts.zip answers) own ∧
        Holds (own.flatten.map (·.map Literal.ofNumber)) b'.worker.core b'.tautologies := by
  obtain ⟨-, rfl⟩ := create_eq_ok_iff.mp h₀
  have hstart : (blank settings).Collects [] [] := ⟨rfl, .empty⟩
  obtain ⟨hlength, own, left, hown, h⟩ := hstart.reads (.inr rfl) hreads hcuts
  exact ⟨hlength, own, hown, h.holds⟩

/-- A text with a clause, and then a fault. -/
def cutAfterClause : Dimacs.Text Unit := ⟨[.problem 0 1 2, .literal 1, .clauseEnd], some ()⟩

/-- A text with a clause, and then a literal that is not declared. -/
def cutAtLiteral : Dimacs.Text Unit :=
  ⟨[.problem 0 1 2, .literal (-1), .clauseEnd, .literal 2, .clauseEnd], none⟩

/-- A text of which the only clause is ended by the end of the text. -/
def endsOpenly : Dimacs.Text Unit := ⟨[.problem 0 3 1, .literal 3], none⟩

theorem reads_keep_texts_apart_cutTexts :
    create .standard = .ok (blank .standard : FormulaBuilder Rat) ∧
    (blank .standard : FormulaBuilder Rat).CutsBetweenClauses
      [cutAfterClause, cutAtLiteral, endsOpenly] ∧
    ∃ b answers, (blank .standard : FormulaBuilder Rat).reads
        [cutAfterClause, cutAtLiteral, endsOpenly] = .ok (b, answers) ∧
      ∃ own, List.Forall₂ OwnClauses
          ([cutAfterClause, cutAtLiteral, endsOpenly].zip answers) own ∧
        Holds (own.flatten.map (·.map Literal.ofNumber)) b.worker.core b.tautologies := by
  have hcuts : (blank .standard : FormulaBuilder Rat).CutsBetweenClauses
      [cutAfterClause, cutAtLiteral, endsOpenly] := by
    decide +kernel
  have hanswers : ((blank .standard : FormulaBuilder Rat).reads
      [cutAfterClause, cutAtLiteral, endsOpenly]).toOption.isSome = true := by
    decide +kernel
  rcases hreads : (blank .standard : FormulaBuilder Rat).reads
      [cutAfterClause, cutAtLiteral, endsOpenly] with breach | ⟨b, answers⟩
  · rw [hreads] at hanswers
    cases hanswers
  · exact ⟨create_standard, hcuts, b, answers, rfl,
      (reads_keep_texts_apart create_standard hreads hcuts).2⟩

/-- A text that is cut short within a clause. -/
def cutWithinClause : Dimacs.Text Unit := ⟨[.problem 0 1 1, .literal 1], some ()⟩

/-- A text of which the only clause is the empty one. -/
def emptyClause : Dimacs.Text Unit := ⟨[.problem 0 1 1, .clauseEnd], none⟩

/-- The literal of the first text becomes the clause of the second one: it is assigned as a unit,
and the empty clause, which no valuation satisfies, is lost. -/
theorem reads_of_openClause :
    create .standard = .ok (blank .standard : FormulaBuilder Rat) ∧
    ∃ b, (blank .standard : FormulaBuilder Rat).reads [cutWithinClause, emptyClause] =
        .ok (b, [.error (.fault ()), .ok ()]) ∧
      b.worker.core.refuted = false ∧
      b.worker.core.assignment.trail = #[⟨.ofNumber 1, .propagation⟩] ∧
      ¬ ∃ own, List.Forall₂ OwnClauses
          ([cutWithinClause, emptyClause].zip [.error (.fault ()), .ok ()]) own ∧
        Holds (own.flatten.map (·.map Literal.ofNumber)) b.worker.core b.tautologies := by
  refine ⟨create_standard, ?_⟩
  have hstate : ((blank .standard : FormulaBuilder Rat).reads
      [cutWithinClause, emptyClause]).toOption.map (fun (b, answers) =>
        (answers, b.worker.core.refuted, b.worker.core.assignment.trail,
          b.worker.core.store.clauses)) =
      some ([.error (.fault ()), .ok ()], false, #[⟨.ofNumber 1, .propagation⟩], #[]) := by
    decide +kernel
  rcases hreads : (blank .standard : FormulaBuilder Rat).reads
      [cutWithinClause, emptyClause] with breach | ⟨b, answers⟩
  · rw [hreads] at hstate
    cases hstate
  rw [hreads] at hstate
  simp only [Except.toOption, Option.map_some, Option.some.injEq, Prod.mk.injEq] at hstate
  obtain ⟨rfl, hrefuted, htrail, hclauses⟩ := hstate
  refine ⟨b, rfl, hrefuted, htrail, ?_⟩
  rintro ⟨own, hown, hholds⟩
  obtain ⟨first, rest, -, hrest, rfl⟩ := List.forall₂_cons_left_iff.mp hown
  obtain ⟨second, _, hsecond, hnil, rfl⟩ := List.forall₂_cons_left_iff.mp hrest
  have hempty : second = [[]] := hsecond
  -- The valuation that makes everything true models the worker, but not the empty clause.
  have hmodels : Valuation.Models (fun _ => true) b.worker.core := by
    refine ⟨hrefuted, ?_, ?_⟩
    · rw [htrail]
      decide +kernel
    · rw [hclauses]
      nofun
  refine Valuation.not_satisfies_nil ((hholds.represents.models_iff _).mp hmodels [] ?_)
  simp [hempty]

end FormulaBuilder

end ClauseSharing
