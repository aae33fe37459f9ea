import ClauseSharing.Proofs.Exchange.Reading
import ClauseSharing.Proofs.Exchange.Sending

/-!
Framing: what is sent is what is received.

Every byte string is the bytes of some clauses and a tail that begins with none
(`exists_encodeAll_append`), and polling a steady source over it gives these clauses, then one error
if the tail is not empty, and then nothing (`Source.yields_encodeAll`). So the receiver accepts
exactly what is sent (`Source.yields_exactly_framed`), and a sender that fails leaves nothing on its
stream that is mistaken for a clause (`Sender.sendAll_leaves_prefix`).
-/

namespace ClauseSharing

/-! ## Byte strings as clauses -/

/-- The bytes are not empty and do not begin with a clause. -/
def Broken (bytes : List UInt8) : Prop :=
  bytes ≠ [] ∧ ∀ (c : SharedClause) (rest : List UInt8), c.Proper → bytes ≠ c.encode ++ rest

/-- The bytes are exactly those of the clauses, none of which has a zero among its literals. -/
structure Frames (cs : List SharedClause) (bytes : List UInt8) : Prop where
  proper : ∀ c ∈ cs, c.Proper
  encodeAll_eq : encodeAll cs = bytes

/-- The bytes begin with those of the clauses, and no clauses cover more of them. -/
structure FramesMost (cs : List SharedClause) (bytes : List UInt8) : Prop where
  proper : ∀ c ∈ cs, c.Proper
  is_prefix : encodeAll cs <+: bytes
  longest : ∀ cs', (∀ c ∈ cs', SharedClause.Proper c) → encodeAll cs' <+: bytes →
    (encodeAll cs').length ≤ (encodeAll cs).length

theorem encode_ne_nil (c : SharedClause) : c.encode ≠ [] := by
  rw [Source.encode_eq]
  exact List.append_ne_nil_of_right_ne_nil _ (List.cons_ne_nil _ _)

/-- Every byte string is some clauses and a tail without clause at its front. -/
theorem exists_encodeAll_append (bytes : List UInt8) :
    ∃ cs tail, (∀ c ∈ cs, SharedClause.Proper c) ∧ bytes = encodeAll cs ++ tail ∧
      (tail = [] ∨ Broken tail) := by
  induction hlength : bytes.length using Nat.strongRecOn generalizing bytes with
  | ind n ih =>
    by_cases hfront : ∃ (c : SharedClause) (rest : List UInt8), c.Proper ∧ bytes = c.encode ++ rest
    · obtain ⟨c, rest, hc, rfl⟩ := hfront
      have hshorter : rest.length < n := by
        have hpos := List.length_pos_iff.mpr (encode_ne_nil c)
        rw [← hlength, List.length_append]
        omega
      obtain ⟨cs, tail, hcs, rfl, htail⟩ := ih rest.length hshorter rest rfl
      refine ⟨c :: cs, tail, List.forall_mem_cons.mpr ⟨hc, hcs⟩, ?_, htail⟩
      rw [encodeAll_cons, List.append_assoc]
    · refine ⟨[], bytes, nofun, rfl, ?_⟩
      by_cases hnil : bytes = []
      · exact .inl hnil
      · exact .inr ⟨hnil, fun c rest hc h => hfront ⟨c, rest, hc, h⟩⟩

/-- Clauses at the front of clauses and a broken tail are the first ones of these. -/
theorem prefix_of_encodeAll_append {cs cs' : List SharedClause} {tail rest : List UInt8}
    (hcs : ∀ c ∈ cs, c.Proper) (htail : Broken tail) (hcs' : ∀ c ∈ cs', c.Proper)
    (h : encodeAll cs ++ tail = encodeAll cs' ++ rest) : cs' <+: cs := by
  induction cs' generalizing cs with
  | nil => exact List.nil_prefix
  | cons c' cs' ih =>
    obtain ⟨hc', hrest'⟩ := List.forall_mem_cons.mp hcs'
    rw [encodeAll_cons, List.append_assoc] at h
    cases cs with
    | nil => exact absurd h (htail.2 c' _ hc')
    | cons c cs =>
      obtain ⟨hc, hrest⟩ := List.forall_mem_cons.mp hcs
      rw [encodeAll_cons, List.append_assoc] at h
      obtain ⟨rfl, htails⟩ := SharedClause.encode_append_inj hc hc' h
      exact (List.prefix_cons_inj c).mpr (ih hrest hrest' htails)

/-- A part of a clause, not empty and not all of it, is broken. -/
theorem broken_of_part {c : SharedClause} (hc : c.Proper) {part : List UInt8}
    (hpart : part <+: c.encode) (hproper : part ≠ c.encode) (hne : part ≠ []) : Broken part := by
  refine ⟨hne, fun c' rest hc' h => hproper ?_⟩
  obtain ⟨more, hmore⟩ := hpart
  -- The clause would end where another one does that has the same bytes and more.
  rw [h, List.append_assoc, ← List.append_nil c.encode] at hmore
  obtain ⟨-, hnil⟩ := SharedClause.encode_append_inj hc' hc hmore
  obtain ⟨rfl, rfl⟩ := List.append_eq_nil_iff.mp hnil
  rw [h]
  simpa using hmore

/-! ## Polling a source -/

namespace Source

/-- Polled again and again, the source gives the listed results one by one and then none. -/
def Yields (s : Source) : List (Except TransportError SharedClause) → Prop
  | [] => s.next.2 = none
  | result :: results => s.next.2 = some result ∧ s.next.1.Yields results

instance (s : Source) : Decidable s.Steady :=
  inferInstanceAs (Decidable (∀ step ∈ s.plan, step.isSteady = true))

variable {s : Source}

theorem Yields.unique {xs ys : List (Except TransportError SharedClause)} (hx : s.Yields xs)
    (hy : s.Yields ys) : xs = ys := by
  induction xs generalizing s ys with
  | nil =>
    cases ys with
    | nil => rfl
    | cons y ys => cases hx.symm.trans hy.1
  | cons x xs ih =>
    cases ys with
    | nil => cases hx.1.symm.trans hy
    | cons y ys =>
      cases hx.1.symm.trans hy.1
      rw [ih hx.2 hy.2]

/-- A source at the end of its bytes gives nothing. -/
theorem yields_nil (hs : s.Steady) (h : s.bytes = []) : s.Yields [] := by
  have hreading := reading_nextClause hs
  unfold Yields next
  generalize s.nextClause = r at hreading ⊢
  cases hreading with
  | ended => rfl
  | item _ _ hbytes =>
    rw [h] at hbytes
    exact absurd (List.append_eq_nil_iff.mp hbytes.symm).1 (encode_ne_nil _)
  | torn _ hne _ _ => exact absurd h hne

/-- Broken bytes give one error, and nothing after it. -/
theorem yields_broken (hs : s.Steady) (h : Broken s.bytes) : s.Yields [.error .cutOff] := by
  have hreading := reading_nextClause hs
  unfold Yields next
  generalize s.nextClause = r at hreading ⊢
  cases hreading with
  | ended _ hnil _ => exact absurd hnil h.1
  | item hc _ hbytes => exact absurd hbytes (h.2 _ _ hc)
  | torn hsteady _ _ hleft => exact ⟨rfl, yields_nil hsteady hleft⟩

/-- Clauses at the front are given first, and what the source yields after them depends on the rest
of the bytes. -/
theorem yields_encodeAll (hs : s.Steady) {cs : List SharedClause} (hcs : ∀ c ∈ cs, c.Proper)
    {tail : List UInt8} (h : s.bytes = encodeAll cs ++ tail)
    {results : List (Except TransportError SharedClause)}
    (htail : ∀ t : Source, t.Steady → t.bytes = tail → t.Yields results) :
    s.Yields (cs.map .ok ++ results) := by
  induction cs generalizing s with
  | nil => exact htail s hs h
  | cons c cs ih =>
    obtain ⟨hc, hrest⟩ := List.forall_mem_cons.mp hcs
    rw [encodeAll_cons, List.append_assoc] at h
    obtain ⟨s₁, hread, hsteady, hbytes⟩ := nextClause_encode hs hc h
    have hnext : s.next = (s₁, some (.ok c)) := by simp only [next, hread]
    rw [List.map_cons, List.cons_append, Yields, hnext]
    exact ⟨rfl, ih hsteady hrest hbytes⟩

theorem yields_of_tail_nil (hs : s.Steady) {cs : List SharedClause} (hcs : ∀ c ∈ cs, c.Proper)
    (h : s.bytes = encodeAll cs) : s.Yields (cs.map .ok) := by
  rw [← List.append_nil (cs.map _)]
  exact yields_encodeAll hs hcs (h.trans (List.append_nil _).symm) fun _ ht => yields_nil ht

theorem yields_of_tail_broken (hs : s.Steady) {cs : List SharedClause} (hcs : ∀ c ∈ cs, c.Proper)
    {tail : List UInt8} (htail : Broken tail) (h : s.bytes = encodeAll cs ++ tail) :
    s.Yields (cs.map .ok ++ [.error .cutOff]) :=
  yields_encodeAll hs hcs h fun _ ht hbytes => yields_broken ht (hbytes ▸ htail)

/-- A source that yields clauses only, and no error, holds exactly these clauses. -/
theorem yields_map_ok_iff (hs : s.Steady) {cs : List SharedClause} :
    s.Yields (cs.map .ok) ↔ Frames cs s.bytes := by
  constructor
  · intro hyields
    obtain ⟨cs', tail, hcs', hbytes, rfl | htail⟩ := exists_encodeAll_append s.bytes
    · rw [List.append_nil] at hbytes
      have hsame := hyields.unique (yields_of_tail_nil hs hcs' hbytes)
      rw [(List.map_inj_right fun _ _ => Except.ok.inj).mp hsame]
      exact ⟨hcs', hbytes.symm⟩
    · have hsame := hyields.unique (yields_of_tail_broken hs hcs' htail hbytes)
      have herror : Except.error TransportError.cutOff ∈ cs.map .ok := by
        rw [hsame]
        exact List.mem_append_right _ List.mem_cons_self
      obtain ⟨_, -, hok⟩ := List.mem_map.mp herror
      cases hok
  · intro h
    exact yields_of_tail_nil hs h.proper h.encodeAll_eq.symm

/-- What a source yields whose bytes are not just clauses. -/
theorem exists_framesMost (hs : s.Steady) (h : ∀ cs, ¬ Frames cs s.bytes) :
    ∃ cs, FramesMost cs s.bytes ∧ s.Yields (cs.map .ok ++ [.error .cutOff]) := by
  obtain ⟨cs, tail, hcs, hbytes, rfl | htail⟩ := exists_encodeAll_append s.bytes
  · rw [List.append_nil] at hbytes
    exact absurd ⟨hcs, hbytes.symm⟩ (h cs)
  · refine ⟨cs, ⟨hcs, ⟨tail, hbytes.symm⟩, ?_⟩, yields_of_tail_broken hs hcs htail hbytes⟩
    rintro cs' hcs' ⟨rest, hrest⟩
    obtain ⟨more, rfl⟩ :=
      prefix_of_encodeAll_append hcs htail hcs' (hbytes.symm.trans hrest.symm)
    rw [encodeAll, encodeAll, List.flatMap_append, List.length_append]
    exact Nat.le_add_right ..

/-- A steady source yields clauses and then nothing exactly if its bytes are those of the clauses.
Otherwise it yields the clauses that cover the longest part of its bytes, then one error, and then
nothing. The bytes of clauses are what a sender leaves whose sendings succeed, as all of them do on
a stream that takes everything. So what was sent is received, and what was received without error
gives the same bytes when it is sent again. -/
theorem yields_exactly_framed (hs : s.Steady) :
    (∀ cs, s.Yields (cs.map .ok) ↔ Frames cs s.bytes) ∧
    ((∀ cs, ¬ Frames cs s.bytes) →
      ∃ cs, FramesMost cs s.bytes ∧ s.Yields (cs.map .ok ++ [.error .cutOff])) ∧
    (∀ plan cs sender answers,
      (Sender.ofSink (.ofPlan plan)).sendAll cs = (sender, answers) →
      (∀ answer ∈ answers, answer = .ok ()) →
      sender.sink.taken = encodeAll cs ∧
      ((∀ c ∈ cs, c.Proper) → s.bytes = sender.sink.taken → s.Yields (cs.map .ok)) ∧
      (s.Yields (cs.map .ok) → sender.sink.taken = s.bytes)) ∧
    ∀ cs, ∀ answer ∈ ((Sender.ofSink (.ofPlan [])).sendAll cs).2, answer = .ok () := by
  refine ⟨fun cs => yields_map_ok_iff hs, exists_framesMost hs, ?_,
    Sender.sendAll_of_planless rfl⟩
  intro plan cs sender answers hsend hok
  have hsending := (Sender.ofSink (.ofPlan plan)).sendingAll_sendAll cs
  rw [hsend] at hsending
  cases hsending with
  | failed =>
    cases hok _ (List.mem_append_right _ List.mem_cons_self)
  | delivered _ htaken =>
    refine ⟨htaken, fun hcs hbytes => ?_, fun hyields => ?_⟩
    · exact yields_of_tail_nil hs hcs (hbytes.trans htaken)
    · exact htaken.trans ((yields_map_ok_iff hs).mp hyields).encodeAll_eq

/-- Three clauses, of which one has no literals, and two have a glue of zero. -/
def mixedClauses : List SharedClause := [⟨[1, -2, 3], 2⟩, ⟨[], 0⟩, ⟨[-4], 0⟩]

/-- A stream that serves three bytes, is interrupted, and serves one byte before it serves as many
as are asked for. -/
def haltingPlan : List StreamStep :=
  [.atMost 3, .fails ⟨true, "interrupt"⟩, .atMost 1]

theorem yields_exactly_framed_mixedClauses :
    (⟨haltingPlan, encodeAll mixedClauses⟩ : Source).Steady ∧
    (⟨haltingPlan, encodeAll mixedClauses⟩ : Source).Yields (mixedClauses.map .ok) := by
  have hsteady : (⟨haltingPlan, encodeAll mixedClauses⟩ : Source).Steady := by decide
  exact ⟨hsteady, ((yields_exactly_framed hsteady).1 _).mpr ⟨by decide, rfl⟩⟩

end Source

namespace Sender

/-- Send clauses one after the other, up to the first failure, over a stream that takes what it
likes of each call. The sender counts the sendings that succeeded. As long as none failed, the
stream holds exactly the bytes of the clauses. After a failure, it holds the bytes of the clauses
before the failing one and a proper part of its bytes, from the first one on. A receiver gets
exactly the clauses that were sent, followed by an error if the part is not empty. -/
theorem sendAll_leaves_prefix {cs : List SharedClause} (hcs : ∀ c ∈ cs, c.Proper)
    {plan : List StreamStep} {s : Sender} {answers : List (Except TransportError Unit)}
    (h : (ofSink (.ofPlan plan)).sendAll cs = (s, answers)) :
    s.sent = answers.countP (·.isOk) ∧
    ((∀ answer ∈ answers, answer = .ok ()) →
      s.sent = cs.length ∧ s.sink.taken = encodeAll cs ∧
      ∀ t : Source, t.Steady → t.bytes = s.sink.taken → t.Yields (cs.map .ok)) ∧
    ∀ e, .error e ∈ answers →
      ∃ before c after part, cs = before ++ c :: after ∧ before.length = s.sent ∧
        part <+: c.encode ∧ part ≠ c.encode ∧ s.sink.taken = encodeAll before ++ part ∧
        ∀ t : Source, t.Steady → t.bytes = s.sink.taken →
          t.Yields (before.map .ok ++ if part = [] then [] else [.error .cutOff]) := by
  have hsending := (ofSink (.ofPlan plan)).sendingAll_sendAll cs
  rw [h] at hsending
  cases hsending with
  | delivered hsent htaken =>
    have hcount : s.sent = cs.length := hsent.trans (Nat.zero_add _)
    refine ⟨?_, fun _ => ⟨hcount, htaken, fun t ht hbytes => ?_⟩, fun e he => ?_⟩
    · rw [hcount, List.countP_replicate]
      rfl
    · exact Source.yields_of_tail_nil ht hcs (hbytes.trans htaken)
    · cases List.eq_of_mem_replicate he
  | @failed _ after c _ before part hsplit hsent htaken hpart hproper =>
    have hcount : s.sent = before.length := hsent.trans (Nat.zero_add _)
    refine ⟨?_, fun hok => ?_, fun _ _ => ?_⟩
    · rw [hcount, List.countP_append, List.countP_replicate]
      rfl
    · cases hok _ (List.mem_append_right _ List.mem_cons_self)
    · refine ⟨before, c, after, part, hsplit, hcount.symm, hpart, hproper, htaken, ?_⟩
      rw [hsplit, List.forall_mem_append, List.forall_mem_cons] at hcs
      obtain ⟨hbefore, hc, -⟩ := hcs
      intro t ht hbytes
      have hsplit : t.bytes = encodeAll before ++ part := hbytes.trans htaken
      split
      · next hnil =>
        rw [hnil, List.append_nil] at hsplit
        rw [List.append_nil]
        exact Source.yields_of_tail_nil ht hbefore hsplit
      · next hne =>
        exact Source.yields_of_tail_broken ht hbefore (broken_of_part hc hpart hproper hne) hsplit

/-- A stream that takes at most three bytes of its third call. -/
def stingyPlan : List StreamStep := [.atMost 12, .atMost 9, .atMost 3]

/-- The third call is the only one for the second clause, which has no literals. -/
def cutShort : Sender × List (Except TransportError Unit) :=
  (ofSink (.ofPlan stingyPlan)).sendAll Source.mixedClauses

theorem sendAll_leaves_prefix_cutShort :
    cutShort.2 = [.ok (), .error (.partlyTaken 8 3)] ∧ cutShort.1.sent = 1 ∧
    (⟨Source.haltingPlan, cutShort.1.sink.taken⟩ : Source).Yields
      [.ok ⟨[1, -2, 3], 2⟩, .error .cutOff] := by
  have hproper : ∀ c ∈ Source.mixedClauses, c.Proper := by decide
  have hsend : (ofSink (.ofPlan stingyPlan)).sendAll Source.mixedClauses =
      (cutShort.1, cutShort.2) := rfl
  obtain ⟨hcount, -, hfailed⟩ := sendAll_leaves_prefix hproper hsend
  obtain ⟨before, c, after, part, hsplit, hlength, -, -, hbytes, hyields⟩ :=
    hfailed (.partlyTaken 8 3) (List.mem_cons_of_mem _ List.mem_cons_self)
  have hbefore := congrArg (List.take before.length) hsplit
  rw [List.take_left, hlength, hcount] at hbefore
  subst hbefore
  have hpart : [0, 0, 0] = part := List.append_cancel_left hbytes
  subst hpart
  exact ⟨rfl, hcount, hyields _ (by decide) rfl⟩

end Sender

end ClauseSharing
