import ClauseSharing.Proofs.Exchange.Framing
import ClauseSharing.Proofs.Import.Endings
import ClauseSharing.Proofs.Import.Units

/-!
Clauses on their way from a stream into a pass.

The first word of a payload is a literal or a glue, and only the length of the payload tells which.
A receiver gives clauses without zeros among their literals (`Source.Yields.proper`). The payload of
such a clause reads as the offer of exactly this clause, or says what is wrong with it, which is a
missing literal or the glue of a longer clause (`SharedClause.Faulty`, `offer`).

A pass over the clauses of a stream therefore ends as malformed with the first faulty clause only,
takes all others as they were sent, and gives its recipient nothing that does not come from one of
them (`Selector.run_of_stream`).
-/

namespace ClauseSharing

/-! ## What a receiver gives -/

namespace Source

variable {s s' : Source}

theorem proper_readLiterals {word : Int32} {literals : List Int32}
    (h : readLiterals word s = (s', .ok literals)) : (0 : Int32) ∉ literals := by
  fun_induction readLiterals word s generalizing s' literals with
  | case1 =>
    cases h
    exact List.not_mem_nil
  | case2 | case3 | case4 => cases h
  | case5 word s hword s₁ next hnext s₂ rest hrest ih =>
    cases h
    exact List.not_mem_cons_of_ne_of_not_mem (Ne.symm hword) (ih hrest)

theorem proper_nextClause {c : SharedClause} (h : s.nextClause = (s', .ok (some c))) :
    c.Proper := by
  unfold nextClause at h
  split at h
  · cases h
  · cases h
  split at h
  · cases h
  next literals hliterals =>
  split at h <;> cases h
  exact proper_readLiterals hliterals

/-- However the stream is cut into calls, it gives no clause with a zero among its literals. -/
theorem Yields.proper {cs : List SharedClause} (h : s.Yields (cs.map .ok)) :
    ∀ c ∈ cs, c.Proper := by
  induction cs generalizing s with
  | nil => exact nofun
  | cons c cs ih =>
    obtain ⟨hnext, hrest⟩ := h
    refine List.forall_mem_cons.mpr ⟨?_, ih hrest⟩
    unfold next at hnext
    split at hnext <;> cases hnext
    next hclause => exact proper_nextClause hclause

end Source

/-! ## What a clause offers -/

namespace SharedClause

variable {c : SharedClause} {e : PayloadError}

/-- What is wrong with a clause. The glue of a unit is not looked at. -/
inductive Faulty (c : SharedClause) : PayloadError → Prop
  | literalless (none : c.literals = []) : Faulty c .noWords
  | badGlue (long : 2 ≤ c.literals.length) (glue_le : c.glue ≤ 0) : Faulty c (.badGlue c.glue)

/-- Nothing is wrong with the clause. -/
def Sound (c : SharedClause) : Prop := ∀ e, ¬ c.Faulty e

/-- What a sound clause offers: the literal of a unit, and the literals of a longer clause with its
glue. -/
def offer (c : SharedClause) : Offer :=
  match c.literals with
  | [literal] => .unit literal
  | literals => .clause c.glue.toInt.toNat literals

/-- The payload of a clause without zeros says what is wrong with it, or reads as its offer. -/
theorem ofPayload_payload (hc : c.Proper) :
    (∃ e, c.Faulty e ∧ Offer.ofPayload c.payload = .error e) ∨
    (c.Sound ∧ Offer.ofPayload c.payload = .ok c.offer) := by
  obtain ⟨literals, glue⟩ := c
  match literals with
  | [] => exact .inl ⟨_, .literalless rfl, rfl⟩
  | [literal] =>
    have hliteral : literal ≠ 0 := fun hzero => hc (List.mem_singleton.mpr hzero.symm)
    refine .inr ⟨fun e hfaulty => ?_, if_neg hliteral⟩
    cases hfaulty with
    | literalless hnone => cases hnone
    | badGlue hlong _ => exact absurd hlong (by simp)
  | first :: second :: rest =>
    have hread := @Payload.ofPayload_clause glue _ (List.cons_ne_nil first (second :: rest))
    have hzero : ¬ (first :: second :: rest).contains 0 = true :=
      fun hzero => hc (List.contains_iff_mem.mp hzero)
    by_cases hglue : glue ≤ 0
    · exact .inl ⟨_, .badGlue (Nat.le_add_left ..) hglue, hread.trans (if_pos hglue)⟩
    · refine .inr ⟨fun e hfaulty => ?_, ?_⟩
      · cases hfaulty with
        | literalless hnone => cases hnone
        | badGlue _ hglue' => exact hglue hglue'
      · exact (hread.trans (if_neg hglue)).trans (if_neg hzero)

theorem ofPayload_of_faulty (hc : c.Proper) (h : c.Faulty e) :
    Offer.ofPayload c.payload = .error e := by
  rcases ofPayload_payload hc with ⟨e', hfaulty, hread⟩ | ⟨hsound, -⟩
  · cases h <;> cases hfaulty
    · exact hread
    · next hnone hlong _ => exact absurd hlong (by simp [hnone])
    · next hlong _ hnone => exact absurd hlong (by simp [hnone])
    · exact hread
  · exact absurd h (hsound e)

theorem faulty_of_ofPayload (hc : c.Proper) (h : Offer.ofPayload c.payload = .error e) :
    c.Faulty e := by
  rcases ofPayload_payload hc with ⟨e', hfaulty, hread⟩ | ⟨-, hread⟩ <;> rw [hread] at h <;> cases h
  exact hfaulty

theorem ofPayload_of_sound (hc : c.Proper) (h : c.Sound) :
    Offer.ofPayload c.payload = .ok c.offer := by
  rcases ofPayload_payload hc with ⟨e, hfaulty, -⟩ | ⟨-, hread⟩
  · exact absurd hfaulty (h e)
  · exact hread

theorem sound_of_ofPayload (hc : c.Proper) {offer : Offer}
    (h : Offer.ofPayload c.payload = .ok offer) : c.Sound ∧ c.offer = offer := by
  rcases ofPayload_payload hc with ⟨e, -, hread⟩ | ⟨hsound, hread⟩ <;> rw [hread] at h <;> cases h
  exact ⟨hsound, rfl⟩

/-- A payload that reads as a longer clause comes from one with this glue and these literals. -/
theorem of_ofPayload_eq_clause (hc : c.Proper) {glue : Nat} {externals : List Int32}
    (h : Offer.ofPayload c.payload = .ok (.clause glue externals)) :
    2 ≤ c.literals.length ∧ (glue : Int) = c.glue.toInt ∧ externals = c.literals := by
  obtain ⟨hsound, hoffer⟩ := sound_of_ofPayload hc h
  obtain ⟨literals, glue'⟩ := c
  match literals with
  | [] => exact absurd (.literalless rfl) (hsound _)
  | [literal] => cases hoffer
  | first :: second :: rest =>
    cases hoffer
    have hpos : ¬ glue' ≤ 0 := fun hglue => hsound _ (.badGlue (Nat.le_add_left ..) hglue)
    have hint := Int32.lt_iff_toInt_lt.mp (Int32.not_le.mp hpos)
    refine ⟨Nat.le_add_left .., Int.toNat_of_nonneg (Int.le_of_lt hint), rfl⟩

/-- The clauses differ in the glue of a unit at most. -/
def SameOffer (c c' : SharedClause) : Prop :=
  c.literals = c'.literals ∧ (c.literals.length = 1 ∨ c.glue = c'.glue)

theorem map_payload_of_sameOffer {cs cs' : List SharedClause} (h : List.Forall₂ SameOffer cs cs') :
    cs'.map payload = cs.map payload := by
  induction h with
  | nil => rfl
  | @cons c c' cs cs' hsame _ ih =>
    obtain ⟨literals, glue⟩ := c
    obtain ⟨literals', glue'⟩ := c'
    obtain ⟨rfl, hunit | rfl⟩ : literals = literals' ∧ (literals.length = 1 ∨ glue = glue') := hsame
    · obtain ⟨literal, rfl⟩ := List.length_eq_one_iff.mp hunit
      rw [List.map_cons, List.map_cons, ih]
      rfl
    · rw [List.map_cons, List.map_cons, ih]

end SharedClause

/-! ## Passes over clauses -/

section Filter

variable {T : Type} [Recipient T]

/-- What the filter keeps of a clause are literals of it, in their order. -/
theorem Survey.kept_sublist (t : T) (externals : List Int32) :
    ((Survey.of t externals).kept.map (·.1)).Sublist externals := by
  induction externals with
  | nil => exact .slnil
  | cons external rest ih =>
    rw [Survey.of]
    split
    · exact List.nil_sublist _
    · exact ih.cons external
    · exact ih.cons_cons external

end Filter

namespace Pass

variable {T K : Type} [Recipient T]

/-- Notes what the recipient knows, and goes on with the rest of the batch unless it is solved. -/
def proceed (p : Pass T K) (rest : List (List Int32)) : Pass T K × Except Interruption Bool :=
  match SolveStatus.of p.recipient with
  | .error b => (p, .error (.breach b))
  | .ok status =>
    let p := { p with report.status := status }
    if status.isFinal then (p, .ok true) else p.consume rest

theorem consume_cons_of_ok {payload : List Int32} {offer : Offer}
    (h : Offer.ofPayload payload = .ok offer) (p : Pass T K) (rest : List (List Int32)) :
    p.consume (payload :: rest) = (p.receive.take offer).proceed rest := by
  rw [consume_cons, h]
  rfl

theorem consume_cons_of_error {payload : List Int32} {e : PayloadError}
    (h : Offer.ofPayload payload = .error e) (p : Pass T K) (rest : List (List Int32)) :
    p.consume (payload :: rest) = (p.receive, .error (.malformed e)) := by
  rw [consume_cons, h]

/-- A batch ends a pass as malformed only by a payload that the pass comes to. -/
theorem exists_malformed_of_consume {p q : Pass T K} {batch : List (List Int32)} {e : PayloadError}
    (h : p.consume batch = (q, .error (.malformed e))) :
    ∃ m payload after, p.ComesTo batch m payload after ∧ Offer.ofPayload payload = .error e := by
  induction batch generalizing p with
  | nil => cases h
  | cons payload rest ih =>
    cases p.advances payload with
    | malformed e' read ends =>
      rw [ends] at h
      cases h
      exact ⟨p, payload, rest, comesTo_head p payload rest, read⟩
    | breach _ _ _ ends | solved _ _ _ ends =>
      rw [ends] at h
      cases h
    | onward _ _ _ goes =>
      rw [goes] at h
      obtain ⟨m, taken, after, hcomes, herror⟩ := ih h
      exact ⟨m, taken, after, hcomes.cons (goes []), herror⟩

/-- All payloads of a batch that a pass drains are offers. -/
theorem ofPayload_of_drained {p m : Pass T K} {batch : List (List Int32)}
    (h : p.consume batch = (m, .ok false)) :
    ∀ payload ∈ batch, ∃ offer, Offer.ofPayload payload = .ok offer := by
  induction batch generalizing p with
  | nil => exact nofun
  | cons payload rest ih =>
    obtain ⟨offer, status, read, goes⟩ := onward_of_drained h
    rw [goes] at h
    exact List.forall_mem_cons.mpr ⟨⟨offer, read⟩, ih h⟩

/-- The pass over the clauses comes to one of them as `m`, with the clauses `after` still to come. -/
def Meets (p : Pass T K) (cs : List SharedClause) (m : Pass T K) (c : SharedClause)
    (after : List SharedClause) : Prop :=
  ∃ before, cs = before ++ c :: after ∧
    p.consume (before.map SharedClause.payload) = (m, .ok false)

variable {p m : Pass T K} {cs after : List SharedClause} {c : SharedClause}

theorem exists_meets_of_comesTo {payload : List Int32} {rest : List (List Int32)}
    (h : p.ComesTo (cs.map SharedClause.payload) m payload rest) :
    ∃ c after, p.Meets cs m c after ∧ c.payload = payload := by
  obtain ⟨before, hsplit, hbefore⟩ := h
  obtain ⟨cs₁, cs₂, rfl, rfl, hsecond⟩ := List.map_eq_append_iff.mp hsplit
  obtain ⟨c, after, rfl, hpayload, -⟩ := List.map_eq_cons_iff.mp hsecond
  exact ⟨c, after, ⟨cs₁, rfl, hbefore⟩, hpayload⟩

theorem Meets.mem (h : p.Meets cs m c after) : c ∈ cs := by
  obtain ⟨before, rfl, -⟩ := h
  exact List.mem_append_right before List.mem_cons_self

theorem Meets.consume_eq (h : p.Meets cs m c after) :
    p.consume (cs.map SharedClause.payload) =
      m.consume (c.payload :: after.map SharedClause.payload) := by
  obtain ⟨before, rfl, hbefore⟩ := h
  rw [List.map_append, List.map_cons, consume_append hbefore]

/-- All clauses before the one that the pass comes to are sound. -/
theorem Meets.sound_before (h : p.Meets cs m c after) (hcs : ∀ c ∈ cs, c.Proper) :
    ∃ before, cs = before ++ c :: after ∧ ∀ b ∈ before, b.Sound := by
  obtain ⟨before, rfl, hbefore⟩ := h
  refine ⟨before, rfl, fun b hb e hfaulty => ?_⟩
  obtain ⟨offer, hread⟩ :=
    ofPayload_of_drained hbefore b.payload (List.mem_map.mpr ⟨b, hb, rfl⟩)
  rw [SharedClause.ofPayload_of_faulty (hcs b (List.mem_append_left _ hb)) hfaulty] at hread
  cases hread

/-! ## What comes of a clause -/

/-- The unit is what a literal of the clause stands for. -/
def UnitOf (t : T) (c : SharedClause) (l : Literal) : Prop :=
  ∃ external ∈ c.literals, unitToAssign t external = some l

/-- The candidate has the glue of the clause, and its literals are what some literals of the clause
stand for, in their order. -/
structure CandidateOf (t : T) (c : SharedClause) (d : Candidate) : Prop where
  long : 2 ≤ c.literals.length
  glue_eq : (d.glue : Int) = c.glue.toInt
  literals : ∃ kept : List Int32, kept.Sublist c.literals ∧
    List.Forall₂ (fun external l => Recipient.resolve t external = some l) kept d.literals

theorem unitOf_of_tries {t : T} {external : Int32} {l : Literal} (hc : c.Sound)
    (tried : TriesUnit t external c.offer) (taken : unitToAssign t external = some l) :
    UnitOf t c l := by
  refine ⟨external, ?_, taken⟩
  have hkept {externals : List Int32}
      (h : (Survey.of t externals).verdict = .unit external) : external ∈ externals := by
    obtain ⟨-, l', hkept⟩ := Survey.verdict_eq_unit h
    exact (Survey.of_mem_kept (hkept ▸ List.mem_cons_self)).1
  obtain ⟨literals, glue⟩ := c
  match literals with
  | [literal] => exact List.mem_singleton.mpr (Eq.symm tried)
  | [] => exact absurd (.literalless rfl) (hc _)
  | _ :: _ :: _ => exact hkept tried

theorem candidateOf_of_leaves {t : T} {d : Candidate} (hc : c.Proper) (h : Leaves t c.payload d) :
    CandidateOf t c d := by
  obtain ⟨externals, hread, hverdict⟩ := h
  obtain ⟨hlong, hglue, rfl⟩ := SharedClause.of_ofPayload_eq_clause hc hread
  have hkept := (Survey.verdict_eq_candidate hverdict).2
  refine ⟨hlong, hglue, _, Survey.kept_sublist t c.literals, ?_⟩
  rw [hkept, List.forall₂_map_left_iff, List.forall₂_map_right_iff, List.forall₂_same]
  rintro ⟨external, l⟩ hmem
  exact LiteralVerdict.of_eq_kept (Survey.of_mem_kept hmem).2

/-- Consuming the payloads of clauses gives units of them to the recipient. -/
theorem exists_units_of_consume (p : Pass T K) (hcs : ∀ c ∈ cs, c.Proper) :
    ∃ units : List Literal,
      (p.consume (cs.map SharedClause.payload)).1.recipient =
        units.foldl Recipient.fix p.recipient ∧
      ∀ l ∈ units, ∃ m c after, p.Meets cs m c after ∧ UnitOf m.recipient c l := by
  refine consume_moments (I := fun q => ∃ units : List Literal,
    q.recipient = units.foldl Recipient.fix p.recipient ∧
    ∀ l ∈ units, ∃ m c after, p.Meets cs m c after ∧ UnitOf m.recipient c l)
    (fun _ h => h) (fun _ _ h => h) (fun m payload rest offer hcomes hread h => ?_)
    ⟨[], rfl, nofun⟩
  obtain ⟨units, hunits, hmeets⟩ := h
  have htakes := takes_take m.receive offer
  generalize (m.receive.take offer).recipient = t, (m.receive.take offer).candidates = queue
    at htakes ⊢
  cases htakes with
  | passed | queued => exact ⟨units, hunits, hmeets⟩
  | @fixed _ external l tried taken =>
    obtain ⟨c, after, hmet, rfl⟩ := exists_meets_of_comesTo hcomes
    obtain ⟨hsound, rfl⟩ := SharedClause.sound_of_ofPayload (hcs c hmet.mem) hread
    refine ⟨units ++ [l], ?_, fun l' hl' => ?_⟩
    · rw [List.foldl_append, ← hunits]
      rfl
    · rcases List.mem_append.mp hl' with hl' | hl'
      · exact hmeets l' hl'
      · rw [List.mem_singleton.mp hl']
        exact ⟨m, c, after, hmet, unitOf_of_tries hsound tried taken⟩

end Pass

/-! ## Main statement -/

namespace Selector

variable {T K : Type} [Recipient T] [Scalar K]

/-- A run is malformed exactly if the batch is. -/
theorem run_eq_malformed_iff (s : Selector K) (probabilities : LiteralLikelihood K) (t : T)
    (batch : List (List Int32)) (e : PayloadError) :
    (s.run probabilities t batch).2 = .error (.malformed e) ↔
      ((Pass.start t : Pass T K).consume batch).2 = .error (.malformed e) := by
  unfold run
  split
  · next h => simp [h]
  · next h => simp [h]
  · next h =>
    rw [h]
    dsimp only
    split <;> simp

/-- Take a stream that gives clauses and then ends without an error, and a pass over the payloads of
these clauses. It never finds a zero among the literals. It ends as malformed exactly if it comes to
a faulty clause, with what is wrong with that one, and all clauses before it are sound. To a sound
clause that it comes to, it does what its own literals, in their order, and its own glue demand, and
then goes on with the clauses behind it. Whatever glue the units have is of no consequence. And all
that the recipient gets are units that literals of some clause stand for, and then clauses with the
glue of some clause and with literals that literals of this clause stand for. -/
theorem run_of_stream {source : Source} {cs : List SharedClause}
    (accepted : source.Yields (cs.map .ok)) (s : Selector K)
    (probabilities : LiteralLikelihood K) (t : T) :
    (s.run probabilities t (cs.map SharedClause.payload)).2 ≠
      .error (.malformed .zeroAmongLiterals) ∧
    (∀ e, (s.run probabilities t (cs.map SharedClause.payload)).2 = .error (.malformed e) ↔
      ∃ m c after, (Pass.start t : Pass T K).Meets cs m c after ∧ c.Faulty e) ∧
    (∀ m c after, (Pass.start t : Pass T K).Meets cs m c after →
      (∃ before, cs = before ++ c :: after ∧ ∀ b ∈ before, b.Sound) ∧
      (c.Sound → (Pass.start t : Pass T K).consume (cs.map SharedClause.payload) =
        (m.receive.take c.offer).proceed (after.map SharedClause.payload))) ∧
    (∀ cs', List.Forall₂ SharedClause.SameOffer cs cs' →
      s.run probabilities t (cs'.map SharedClause.payload) =
        s.run probabilities t (cs.map SharedClause.payload)) ∧
    ∃ (units : List Literal) (added : List Candidate),
      (s.run probabilities t (cs.map SharedClause.payload)).1 =
        added.foldl Recipient.adopt (units.foldl Recipient.fix t) ∧
      (∀ l ∈ units, ∃ m c after, (Pass.start t : Pass T K).Meets cs m c after ∧
        Pass.UnitOf m.recipient c l) ∧
      ∀ d ∈ added, ∃ m c after, (Pass.start t : Pass T K).Meets cs m c after ∧
        Pass.CandidateOf m.recipient c d := by
  have hcs := accepted.proper
  have hmalformed (e : PayloadError) :
      (s.run probabilities t (cs.map SharedClause.payload)).2 = .error (.malformed e) ↔
        ∃ m c after, (Pass.start t : Pass T K).Meets cs m c after ∧ c.Faulty e := by
    rw [run_eq_malformed_iff]
    constructor
    · intro h
      obtain ⟨m, payload, rest, hcomes, hread⟩ := Pass.exists_malformed_of_consume (Prod.ext rfl h)
      obtain ⟨c, after, hmet, rfl⟩ := Pass.exists_meets_of_comesTo hcomes
      exact ⟨m, c, after, hmet, SharedClause.faulty_of_ofPayload (hcs c hmet.mem) hread⟩
    · rintro ⟨m, c, after, hmet, hfaulty⟩
      rw [hmet.consume_eq, Pass.consume_cons_of_error
        (SharedClause.ofPayload_of_faulty (hcs c hmet.mem) hfaulty)]
  refine ⟨fun h => ?_, hmalformed, fun m c after hmet => ⟨hmet.sound_before hcs, fun hsound => ?_⟩,
    fun cs' hsame => ?_, ?_⟩
  · -- A zero among the literals is nothing that a clause can suffer from.
    obtain ⟨_, _, _, -, hfaulty⟩ := (hmalformed _).mp h
    cases hfaulty
  · rw [hmet.consume_eq, Pass.consume_cons_of_ok
      (SharedClause.ofPayload_of_sound (hcs c hmet.mem) hsound)]
  · rw [SharedClause.map_payload_of_sameOffer hsame]
  · obtain ⟨units, hunits, hmeets⟩ :=
      Pass.exists_units_of_consume (Pass.start t : Pass T K) hcs
    obtain ⟨added, hadded, hrun⟩ :=
      s.run_recipient probabilities t (cs.map SharedClause.payload)
    refine ⟨units, added, hrun.trans (congrArg (List.foldl Recipient.adopt · added) hunits),
      hmeets, fun d hd => ?_⟩
    rcases Pass.mem_candidates_consume (hadded d hd) with
      hqueue | ⟨m, payload, rest, hcomes, hleaves⟩
    · cases (Array.mem_toList_iff.mpr hqueue)
    obtain ⟨c, after, hmet, rfl⟩ := Pass.exists_meets_of_comesTo hcomes
    exact ⟨m, c, after, hmet, Pass.candidateOf_of_leaves (hcs c hmet.mem) hleaves⟩

/-- A clause, a unit whose glue is none, a clause with such a glue, and one without literals. -/
def oddlyGlued : List SharedClause := [⟨[1, -2, 3], 2⟩, ⟨[4], -7⟩, ⟨[5, 6], 0⟩, ⟨[], 1⟩]

/-- A recipient that knows nine variables and nothing about them. -/
def nineVariables : RootPicture := ⟨9, [], [], [], [], [], none, none, [], []⟩

/-- The unit is taken, and the clause behind it ends the pass. -/
theorem run_of_stream_oddlyGlued :
    (⟨Source.haltingPlan, encodeAll oddlyGlued⟩ : Source).Yields (oddlyGlued.map .ok) ∧
    (Importer.admitAll.run (.ofTable [] (0, 0)) nineVariables
      (oddlyGlued.map SharedClause.payload)).2 = .error (.malformed (.badGlue 0)) ∧
    (Importer.admitAll.run (.ofTable [] (0, 0)) nineVariables
      (oddlyGlued.map SharedClause.payload)).1.units.length = 1 := by
  have accepted : (⟨Source.haltingPlan, encodeAll oddlyGlued⟩ : Source).Yields
      (oddlyGlued.map .ok) :=
    Source.yields_of_tail_nil (by decide) (by decide) rfl
  obtain ⟨-, hmalformed, -⟩ :=
    run_of_stream accepted Importer.admitAll (.ofTable [] (0, 0)) nineVariables
  have hmet : ∃ m, (Pass.start nineVariables : Pass RootPicture Rat).Meets oddlyGlued m
      ⟨[5, 6], 0⟩ [⟨[], 1⟩] :=
    ⟨_, [⟨[1, -2, 3], 2⟩, ⟨[4], -7⟩], rfl, Prod.ext rfl (by decide +kernel)⟩
  obtain ⟨m, hmet⟩ := hmet
  exact ⟨accepted, (hmalformed _).mpr ⟨m, _, _, hmet, .badGlue (by decide) (by decide)⟩,
    by decide +kernel⟩

end Selector

end ClauseSharing
