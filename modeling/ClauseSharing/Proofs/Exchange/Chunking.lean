import ClauseSharing.Proofs.Exchange.Framing

/-!
What is read does not depend on how the bytes arrive.

What reading an item off a steady source comes to is decided by the bytes (`Source.Reading.agree`),
so two steady sources with the same bytes give the same answers to any number of polls, those after
an error and after the end included. A word takes its four bytes and no more, and the calls that are
spent on reading are counted by the bytes that they serve (`Source.Spends`): there are at most that
many and one more, the one that sees the end, interrupted calls apart.

Main statement: `Source.polls_depend_on_bytes`.
-/

namespace ClauseSharing

/-- Whether a call with this step is served, with bytes or with the end of the stream. -/
def StreamStep.isServed : StreamStep → Bool
  | .atMost _ => true
  | .fails _ => false

namespace Source

variable {s s' s'' t : Source}

/-! ## Calls -/

/-- From `s` to `s'`, calls have taken bytes off the stream, and those that were served are at most
as many as these bytes and `extra` more. -/
def Spends (s s' : Source) (extra : Nat) : Prop :=
  ∃ steps got, s.plan = steps ++ s'.plan ∧ s.bytes = got ++ s'.bytes ∧
    steps.countP (·.isServed) ≤ got.length + extra

namespace Spends

theorem refl (s : Source) (n : Nat) : s.Spends s n := ⟨[], [], rfl, rfl, Nat.zero_le _⟩

theorem trans {m n : Nat} (h : s.Spends s' m) (h' : s'.Spends s'' n) : s.Spends s'' (m + n) := by
  obtain ⟨steps, got, hplan, hbytes, hcount⟩ := h
  obtain ⟨steps', got', hplan', hbytes', hcount'⟩ := h'
  refine ⟨steps ++ steps', got ++ got', ?_, ?_, ?_⟩
  · rw [hplan, hplan', List.append_assoc]
  · rw [hbytes, hbytes', List.append_assoc]
  · rw [List.countP_append, List.length_append]
    omega

/-- Before anything else, calls that all served bytes can be made. -/
theorem prepend {n : Nat} (h : s.Spends s' 0) (h' : s'.Spends s'' n) : s.Spends s'' n :=
  Nat.zero_add n ▸ h.trans h'

end Spends

/-- A single call fails, or serves a byte, or is the one that serves none. -/
theorem spends_read {room extra : Nat} {r : Except StreamFault (List UInt8)}
    (h : s.read room = (s', r)) (hextra : r = .ok [] → extra = 1) : s.Spends s' extra := by
  unfold Source.read at h
  split at h <;> cases h
  · next hplan =>
    exact ⟨[], _, by rw [hplan]; rfl, (List.take_append_drop room _).symm, Nat.zero_le _⟩
  · next limit plan hplan =>
    refine ⟨[.atMost limit], _, hplan, (List.take_append_drop (min limit room) _).symm, ?_⟩
    show 1 ≤ (s.bytes.take (min limit room)).length + extra
    rcases Nat.eq_zero_or_pos (s.bytes.take (min limit room)).length with hnone | hsome
    · have hone := hextra (congrArg Except.ok (List.length_eq_zero_iff.mp hnone))
      exact Nat.le_add_left_of_le (Nat.le_of_eq hone.symm)
    · exact Nat.le_add_right_of_le hsome
  · next fault plan hplan => exact ⟨[.fails fault], [], hplan, rfl, Nat.zero_le _⟩

/-- Filling a room spends at most one call on the end of the stream, and none if it succeeds. -/
theorem spends_fill {room extra : Nat} {r : Except StreamFault (List UInt8)}
    (h : s.fill room = (s', r)) (hextra : (∀ got, r = .ok got → got.length < room) → extra = 1) :
    s.Spends s' extra := by
  fun_induction fill s room generalizing s' r with
  | case1 s =>
    cases h
    exact .refl s extra
  | case2 s room _ s₁ fault hread _ ih =>
    have hfirst : s.Spends s₁ 0 := spends_read hread fun h => by cases h
    exact hfirst.prepend (ih h hextra)
  | case3 s room _ s₁ fault hread =>
    cases h
    exact spends_read hread fun h => by cases h
  | case4 s room hroom s₁ hread =>
    cases h
    refine spends_read hread fun _ => hextra fun got hgot => ?_
    cases hgot
    exact Nat.pos_of_ne_zero hroom
  | case5 s room _ s₁ b bs hread s₂ fault hfill ih =>
    cases h
    have hfirst : s.Spends s₁ 0 := spends_read hread fun h => by cases h
    exact hfirst.prepend (ih hfill fun _ => hextra fun _ h => by cases h)
  | case6 s room _ s₁ b bs hread s₂ more hfill ih =>
    cases h
    have hfirst : s.Spends s₁ 0 := spends_read hread fun h => by cases h
    refine hfirst.prepend (ih hfill fun hshort => hextra fun got hgot => ?_)
    cases hgot
    have hless := hshort more rfl
    rw [List.length_append]
    omega

/-! ## Items -/

theorem spends_nextWord {extra : Nat} {r : Except TransportError (Option Int32)}
    (h : s.nextWord = (s', r)) (hextra : (∀ w, r ≠ .ok (some w)) → extra = 1) :
    s.Spends s' extra := by
  unfold nextWord at h
  split at h <;> cases h
  · next hfill => exact spends_fill hfill fun _ => hextra fun _ h => by cases h
  · next hfill => exact spends_fill hfill fun _ => hextra fun _ h => by cases h
  · next hfill =>
    refine spends_fill hfill fun hshort => ?_
    exact absurd (hshort _ rfl) (Nat.lt_irrefl 4)
  · next hfill => exact spends_fill hfill fun _ => hextra fun _ h => by cases h

theorem spends_readLiterals {word : Int32} {extra : Nat} {r : Except TransportError (List Int32)}
    (h : readLiterals word s = (s', r)) (hextra : (∀ literals, r ≠ .ok literals) → extra = 1) :
    s.Spends s' extra := by
  fun_induction readLiterals word s generalizing s' r with
  | case1 s =>
    cases h
    exact .refl s extra
  | case2 word s _ s₁ e hread =>
    cases h
    exact spends_nextWord hread fun _ => hextra fun _ h => by cases h
  | case3 word s _ s₁ hread =>
    cases h
    exact spends_nextWord hread fun _ => hextra fun _ h => by cases h
  | case4 word s _ s₁ next hread s₂ e hrest ih =>
    cases h
    have hfirst : s.Spends s₁ 0 := spends_nextWord hread fun h => absurd rfl (h next)
    exact hfirst.prepend (ih hrest fun _ => hextra fun _ h => by cases h)
  | case5 word s _ s₁ next hread s₂ literals hrest ih =>
    cases h
    have hfirst : s.Spends s₁ 0 := spends_nextWord hread fun h => absurd rfl (h next)
    exact hfirst.prepend (ih hrest fun h => absurd rfl (h literals))

theorem spends_nextClause {r : Except TransportError (Option SharedClause)}
    (h : s.nextClause = (s', r)) : s.Spends s' 1 := by
  unfold nextClause at h
  split at h
  · next hword =>
    cases h
    exact spends_nextWord hword fun _ => rfl
  · next hword =>
    cases h
    exact spends_nextWord hword fun _ => rfl
  · next s₁ word hword =>
    have hfirst : s.Spends s₁ 0 := spends_nextWord hword fun h => absurd rfl (h word)
    split at h
    · next hliterals =>
      cases h
      exact hfirst.prepend (spends_readLiterals hliterals fun _ => rfl)
    · next s₂ literals hliterals =>
      have hsecond : s₁.Spends s₂ 0 :=
        spends_readLiterals hliterals fun h => absurd rfl (h literals)
      refine hfirst.prepend (hsecond.prepend ?_)
      split at h <;> next hglue => cases h; exact spends_nextWord hglue fun _ => rfl

theorem spends_next (s : Source) : s.Spends s.next.1 1 := by
  unfold next
  split <;> next hclause => exact spends_nextClause hclause

/-! ## Agreement -/

/-- What reading an item off steady sources comes to depends on their bytes alone, if the bytes tell
where a written item ends. -/
theorem Reading.agree {α : Type} {valid : α → Prop} {encode : α → List UInt8}
    (hne : ∀ a, encode a ≠ [])
    (hinj : ∀ a b rest rest', valid a → valid b → encode a ++ rest = encode b ++ rest' →
      a = b ∧ rest = rest')
    {r q : Source × Except TransportError (Option α)} (hr : Reading valid encode s r)
    (hq : Reading valid encode t q) (h : s.bytes = t.bytes) :
    r.2 = q.2 ∧ r.1.bytes = q.1.bytes ∧ r.1.Steady ∧ q.1.Steady := by
  cases hr with
  | @item a s' ha hs hbytes =>
    have hsome : t.bytes ≠ [] := by
      rw [← h, hbytes]
      exact List.append_ne_nil_of_left_ne_nil (hne a) _
    cases hq with
    | @item b t' hb ht hbytes' =>
      obtain ⟨rfl, hrest⟩ := hinj a b _ _ ha hb (hbytes.symm.trans (h.trans hbytes'))
      exact ⟨rfl, hrest, hs, ht⟩
    | ended _ hnil _ => exact absurd hnil hsome
    | torn _ _ hitemless _ => exact absurd (h.symm.trans hbytes) (hitemless a _ ha)
  | ended hs hnil hleft =>
    cases hq with
    | @item b _ _ _ hbytes' =>
      rw [← h, hnil] at hbytes'
      exact absurd (List.append_eq_nil_iff.mp hbytes'.symm).1 (hne b)
    | ended ht _ hleft' => exact ⟨rfl, hleft.trans hleft'.symm, hs, ht⟩
    | torn _ hsome _ _ => exact absurd (h.symm.trans hnil) hsome
  | torn hs hsome hitemless hleft =>
    cases hq with
    | @item b _ hb _ hbytes' => exact absurd (h.trans hbytes') (hitemless b _ hb)
    | ended _ hnil _ => exact absurd (h.trans hnil) hsome
    | torn ht _ _ hleft' => exact ⟨rfl, hleft.trans hleft'.symm, hs, ht⟩

theorem nextWord_agree (hs : s.Steady) (ht : t.Steady) (h : s.bytes = t.bytes) :
    s.nextWord.2 = t.nextWord.2 := by
  refine ((reading_nextWord hs).agree (fun _ => List.cons_ne_nil _ _) ?_ (reading_nextWord ht)
    h).1
  intro v w rest rest' _ _ hbytes
  obtain ⟨hword, hrest⟩ := List.append_inj hbytes rfl
  exact ⟨Word.toBytes_inj hword, hrest⟩

/-- A word takes its four bytes, or all that are left, and no more. -/
theorem bytes_nextWord (hs : s.Steady) : s.nextWord.1.bytes = s.bytes.drop 4 := by
  obtain ⟨s', hfill, -, hbytes⟩ := fill_of_steady hs 4
  rw [← hbytes, nextWord, hfill]
  split <;> next h => rw [(Prod.mk.inj h).1]

theorem next_agree (hs : s.Steady) (ht : t.Steady) (h : s.bytes = t.bytes) :
    s.next.2 = t.next.2 ∧ s.next.1.bytes = t.next.1.bytes ∧ s.next.1.Steady ∧ t.next.1.Steady := by
  obtain ⟨hanswer, hleft⟩ := (reading_nextClause hs).agree encode_ne_nil
    (fun _ _ _ _ hc hd => SharedClause.encode_append_inj hc hd) (reading_nextClause ht) h
  unfold next
  generalize s.nextClause = r at hanswer hleft
  generalize t.nextClause = q at hanswer hleft
  obtain ⟨s', _ | _ | _⟩ := r <;> obtain ⟨t', _⟩ := q <;> cases hanswer <;> exact ⟨rfl, hleft⟩

/-! ## Polls -/

/-- The source after `n` polls, and their answers. Polling goes on after an error and after the
end. -/
def polls (s : Source) : Nat → Source × List (Option (Except TransportError SharedClause))
  | 0 => (s, [])
  | n + 1 => ((s.next.1.polls n).1, s.next.2 :: (s.next.1.polls n).2)

theorem polls_agree (hs : s.Steady) (ht : t.Steady) (h : s.bytes = t.bytes) (n : Nat) :
    (s.polls n).2 = (t.polls n).2 ∧ (s.polls n).1.bytes = (t.polls n).1.bytes := by
  induction n generalizing s t with
  | zero => exact ⟨rfl, h⟩
  | succ n ih =>
    obtain ⟨hanswer, hleft, hs₁, ht₁⟩ := next_agree hs ht h
    obtain ⟨hanswers, hbytes⟩ := ih hs₁ ht₁ hleft
    refine ⟨?_, hbytes⟩
    rw [polls, polls, hanswer, hanswers]

/-- As many polls as there are results give these, and one more gives none. -/
theorem Yields.polls {results : List (Except TransportError SharedClause)}
    (h : s.Yields results) : (s.polls (results.length + 1)).2 = results.map some ++ [none] := by
  induction results generalizing s with
  | nil =>
    show [s.next.2] = [none]
    rw [show s.next.2 = none from h]
  | cons result results ih =>
    obtain ⟨hfirst, hrest⟩ := h
    rw [List.length_cons, Source.polls, hfirst, ih hrest, List.map_cons, List.cons_append]

theorem spends_polls (s : Source) (n : Nat) : s.Spends (s.polls n).1 n := by
  induction n generalizing s with
  | zero => exact .refl s 0
  | succ n ih =>
    have h := (spends_next s).trans (ih s.next.1)
    rwa [Nat.add_comm] at h

/-- Two steady sources with the same bytes answer any number of polls alike, those after an error or
after the end included, and have the same bytes left after them. So they give the same next word,
which takes its four bytes, or all that are left, and never more. Every word and every poll comes to
an answer: the calls that are served are at most as many as the bytes that they take, and one more
for each word or poll. -/
theorem polls_depend_on_bytes (hs : s.Steady) (ht : t.Steady) (h : s.bytes = t.bytes) :
    (∀ n, (s.polls n).2 = (t.polls n).2 ∧ (s.polls n).1.bytes = (t.polls n).1.bytes) ∧
    s.nextWord.2 = t.nextWord.2 ∧
    s.nextWord.1.bytes = s.bytes.drop 4 ∧ t.nextWord.1.bytes = t.bytes.drop 4 ∧
    s.Spends s.nextWord.1 1 ∧ ∀ n, s.Spends (s.polls n).1 n :=
  ⟨polls_agree hs ht h, nextWord_agree hs ht h, bytes_nextWord hs, bytes_nextWord ht,
    spends_nextWord rfl fun _ => rfl, spends_polls s⟩

/-- Three clauses, and a fourth one that breaks off inside of a word. -/
def tornBytes : List UInt8 := encodeAll mixedClauses ++ [1, 0]

/-- Each byte on its own, after an interruption. -/
def bytewisePlan : List StreamStep :=
  (List.replicate 50 [.fails ⟨true, "interrupt"⟩, .atMost 1]).flatten

theorem polls_depend_on_bytes_torn :
    (⟨bytewisePlan, tornBytes⟩ : Source).Steady ∧ (⟨haltingPlan, tornBytes⟩ : Source).Steady ∧
    ((⟨bytewisePlan, tornBytes⟩ : Source).polls 5).2 =
      [some (.ok ⟨[1, -2, 3], 2⟩), some (.ok ⟨[], 0⟩), some (.ok ⟨[-4], 0⟩),
        some (.error .cutOff), none] := by
  have hs : (⟨bytewisePlan, tornBytes⟩ : Source).Steady := by decide
  have ht : (⟨haltingPlan, tornBytes⟩ : Source).Steady := by decide
  obtain ⟨hanswers, -⟩ := (polls_depend_on_bytes hs ht rfl).1 5
  have hproper : ∀ c ∈ mixedClauses, c.Proper := by decide
  have htorn : Broken [1, 0] := by
    have hunit : SharedClause.Proper ⟨[1], 0⟩ := by decide
    exact broken_of_part hunit ⟨_, rfl⟩ (by decide) (by decide)
  have hyields : (⟨haltingPlan, tornBytes⟩ : Source).Yields
      (mixedClauses.map .ok ++ [.error .cutOff]) := yields_of_tail_broken ht hproper htorn rfl
  exact ⟨hs, ht, hanswers.trans hyields.polls⟩

end Source

end ClauseSharing
