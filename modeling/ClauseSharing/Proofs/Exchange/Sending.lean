import ClauseSharing.Exchange.Sender

/-!
What a sender leaves on its stream.

Offering bytes either has all of them taken, or fails with a proper part taken from the first byte
on (`Sender.offering_offer`). So does sending a clause, although it offers the literals and the
trailer one after the other (`Sender.sending_send`). Sending clauses up to the first failure
therefore leaves whole clauses and at most a part of one more (`Sender.sendingAll_sendAll`).
-/

namespace ClauseSharing

/-- The bytes of the clauses, one after the other. -/
def encodeAll (cs : List SharedClause) : List UInt8 := cs.flatMap SharedClause.encode

@[simp] theorem encodeAll_cons (c : SharedClause) (cs : List SharedClause) :
    encodeAll (c :: cs) = c.encode ++ encodeAll cs :=
  List.flatMap_cons

/-- A stream takes some of the bytes that it is offered, from the first one on, or none. -/
theorem Sink.write_cases (s : Sink) (bytes : List UInt8) :
    (∃ s' n, s.write bytes = (s', .ok n) ∧ n ≤ bytes.length ∧
      s'.taken = s.taken ++ bytes.take n) ∨
    ∃ s' fault, s.write bytes = (s', .error fault) ∧ s'.taken = s.taken := by
  unfold write
  split
  · refine .inl ⟨_, _, rfl, Nat.le_refl _, ?_⟩
    rw [List.take_length]
  · next limit plan _ =>
    refine .inl ⟨_, _, rfl, Nat.min_le_right .., ?_⟩
    rw [List.take_eq_take_min]
  · exact .inr ⟨_, _, rfl, rfl⟩

namespace Sender

/-- Sends clauses one after the other, up to the first one that fails. -/
def sendAll (s : Sender) : List SharedClause → Sender × List (Except TransportError Unit)
  | [] => (s, [])
  | c :: cs =>
    match s.send c with
    | (s, .error e) => (s, [.error e])
    | (s, .ok ()) =>
      let (s, answers) := s.sendAll cs
      (s, .ok () :: answers)

/-- What offering bytes comes to: all of them are taken, or the call fails and those taken are a
proper part, from the first byte on. -/
inductive Offering (s : Sender) (bytes : List UInt8) : Sender × Except TransportError Unit → Prop
  | served {s' : Sender} (sent_eq : s'.sent = s.sent)
      (taken_eq : s'.sink.taken = s.sink.taken ++ bytes) : Offering s bytes (s', .ok ())
  | failed {s' : Sender} {e : TransportError} (part : List UInt8) (sent_eq : s'.sent = s.sent)
      (taken_eq : s'.sink.taken = s.sink.taken ++ part) (is_part : part <+: bytes)
      (proper : part ≠ bytes) : Offering s bytes (s', .error e)

theorem offering_offer (s : Sender) (bytes : List UInt8) : Offering s bytes (s.offer bytes) := by
  unfold offer
  split
  · next hempty =>
    rw [List.isEmpty_iff.mp hempty]
    exact .served rfl (List.append_nil _).symm
  · next hempty =>
    obtain ⟨sink, n, hwrite, hle, htaken⟩ | ⟨sink, fault, hwrite, htaken⟩ :=
      s.sink.write_cases bytes
    all_goals rw [hwrite]
    · dsimp only
      split
      · next hall =>
        rw [hall, List.take_length] at htaken
        exact .served rfl htaken
      · next hsome =>
        refine .failed (bytes.take n) rfl htaken (List.take_prefix n bytes) fun h => hsome ?_
        rw [← Nat.min_eq_left hle, ← List.length_take, h]
    · refine .failed [] rfl (htaken.trans (List.append_nil _).symm) List.nil_prefix ?_
      intro hnil
      exact hempty (hnil ▸ List.isEmpty_nil)

/-- What sending a clause comes to. -/
inductive Sending (s : Sender) (c : SharedClause) : Sender × Except TransportError Unit → Prop
  | delivered {s' : Sender} (sent_eq : s'.sent = s.sent + 1)
      (taken_eq : s'.sink.taken = s.sink.taken ++ c.encode) : Sending s c (s', .ok ())
  | failed {s' : Sender} {e : TransportError} (part : List UInt8) (sent_eq : s'.sent = s.sent)
      (taken_eq : s'.sink.taken = s.sink.taken ++ part) (is_part : part <+: c.encode)
      (proper : part ≠ c.encode) : Sending s c (s', .error e)

theorem sending_send (s : Sender) (c : SharedClause) : Sending s c (s.send c) := by
  have hencode : c.encode =
      c.literals.flatMap Word.toBytes ++ [0, c.glue].flatMap Word.toBytes := by
    rw [SharedClause.encode, SharedClause.words, List.flatMap_append]
  have hliterals := s.offering_offer (c.literals.flatMap Word.toBytes)
  unfold send
  generalize s.offer (c.literals.flatMap Word.toBytes) = r at hliterals ⊢
  cases hliterals with
  | failed part hsent htaken hpart _ =>
    refine .failed part hsent htaken (hencode ▸ hpart.trans (List.prefix_append _ _)) fun h => ?_
    -- The literals alone are too short for the clause.
    have hlength := hpart.length_le
    rw [h, hencode, List.length_append] at hlength
    exact absurd hlength (by simp [Word.length_toBytes])
  | @served s₁ hsent htaken =>
    dsimp only
    have htrailer := s₁.offering_offer ([0, c.glue].flatMap Word.toBytes)
    generalize s₁.offer ([0, c.glue].flatMap Word.toBytes) = r at htrailer ⊢
    cases htrailer with
    | served hsent₂ htaken₂ =>
      refine .delivered (congrArg (· + 1) (hsent₂.trans hsent)) ?_
      rw [htaken₂, htaken, List.append_assoc, hencode]
    | failed part hsent₂ htaken₂ hpart hproper =>
      refine .failed (c.literals.flatMap Word.toBytes ++ part) (hsent₂.trans hsent) ?_ ?_ ?_
      · rw [htaken₂, htaken, List.append_assoc]
      · rw [hencode]
        exact (List.prefix_append_right_inj _).mpr hpart
      · rw [hencode]
        exact fun h => hproper (List.append_cancel_left h)

/-- What sending clauses up to the first failure comes to: all of them are delivered, or those
before a failing one are and a proper part of its bytes is taken. -/
inductive SendingAll (s : Sender) (cs : List SharedClause) :
    Sender × List (Except TransportError Unit) → Prop
  | delivered {s' : Sender} (sent_eq : s'.sent = s.sent + cs.length)
      (taken_eq : s'.sink.taken = s.sink.taken ++ encodeAll cs) :
      SendingAll s cs (s', List.replicate cs.length (.ok ()))
  | failed {s' : Sender} {after : List SharedClause} {c : SharedClause} {e : TransportError}
      (before : List SharedClause) (part : List UInt8) (split : cs = before ++ c :: after)
      (sent_eq : s'.sent = s.sent + before.length)
      (taken_eq : s'.sink.taken = s.sink.taken ++ (encodeAll before ++ part))
      (is_part : part <+: c.encode) (proper : part ≠ c.encode) :
      SendingAll s cs (s', List.replicate before.length (.ok ()) ++ [.error e])

theorem sendingAll_sendAll (s : Sender) (cs : List SharedClause) :
    SendingAll s cs (s.sendAll cs) := by
  induction cs generalizing s with
  | nil => exact .delivered rfl (List.append_nil _).symm
  | cons c cs ih =>
    have hsend := s.sending_send c
    unfold sendAll
    generalize s.send c = r at hsend ⊢
    cases hsend with
    | failed part hsent htaken hpart hproper =>
      exact .failed [] part rfl hsent htaken hpart hproper
    | @delivered s₁ hsent htaken =>
      dsimp only
      have hrest := ih s₁
      generalize s₁.sendAll cs = r at hrest ⊢
      cases hrest with
      | delivered hsent₂ htaken₂ =>
        refine .delivered ?_ ?_
        · rw [hsent₂, hsent, List.length_cons, Nat.add_assoc, Nat.add_comm 1]
        · rw [htaken₂, htaken, encodeAll_cons, List.append_assoc]
      | failed before part hsplit hsent₂ htaken₂ hpart hproper =>
        refine .failed (c :: before) part (congrArg (c :: ·) hsplit) ?_ ?_ hpart hproper
        · rw [hsent₂, hsent, List.length_cons, Nat.add_assoc, Nat.add_comm 1]
        · rw [htaken₂, htaken, encodeAll_cons, List.append_assoc, List.append_assoc]

/-! ## Streams that take everything -/

theorem offer_of_planless {s : Sender} (h : s.sink.plan = []) (bytes : List UInt8) :
    ∃ s', s.offer bytes = (s', .ok ()) ∧ s'.sink.plan = [] := by
  unfold offer
  split
  · exact ⟨s, rfl, h⟩
  · simp only [Sink.write, h, if_true]
    exact ⟨_, rfl, rfl⟩

/-- On a stream that takes everything, no sending fails. -/
theorem sendAll_of_planless {s : Sender} (h : s.sink.plan = []) (cs : List SharedClause) :
    ∀ answer ∈ (s.sendAll cs).2, answer = .ok () := by
  induction cs generalizing s with
  | nil => exact fun answer hanswer => (List.not_mem_nil hanswer).elim
  | cons c cs ih =>
    obtain ⟨s₁, hliterals, h₁⟩ := offer_of_planless h (c.literals.flatMap Word.toBytes)
    obtain ⟨s₂, htrailer, h₂⟩ := offer_of_planless h₁ ([0, c.glue].flatMap Word.toBytes)
    have hsend : s.send c = ({ s₂ with sent := s₂.sent + 1 }, .ok ()) := by
      simp only [send, hliterals, htrailer]
    intro answer hanswer
    simp only [sendAll, hsend, List.mem_cons] at hanswer
    rcases hanswer with rfl | hanswer
    · rfl
    · exact ih (s := { s₂ with sent := s₂.sent + 1 }) h₂ answer hanswer

end Sender

end ClauseSharing
