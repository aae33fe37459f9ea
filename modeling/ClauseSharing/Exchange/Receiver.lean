import ClauseSharing.Exchange.SharedClause

/-!
Receiving clauses.

A word is put together from as many calls as it takes, and an interrupted call is repeated. The
stream may end between two clauses; inside a clause its end is an error.

Main statements: `fill_bytes` and `nextWord_bytes` say that what was read, followed by what is
left, is what was there before, so no byte beyond a word is consumed.
-/

namespace ClauseSharing

namespace Source

/-- Reads until the room is filled, the stream ends, or a call fails for good. -/
def fill (s : Source) (room : Nat) : Source × Except StreamFault (List UInt8) :=
  if room = 0 then (s, .ok [])
  else
    match _h : s.read room with
    | (s', .error fault) => if fault.interrupted then s'.fill room else (s', .error fault)
    | (s', .ok []) => (s', .ok [])
    | (s', .ok (b :: bs)) =>
      match s'.fill (room - (b :: bs).length) with
      | (s'', .error fault) => (s'', .error fault)
      | (s'', .ok more) => (s'', .ok (b :: bs ++ more))
termination_by (s.plan.length, room)
decreasing_by
  · rcases plan_read _h with h' | ⟨_, _, _, h'⟩
    · exact Prod.Lex.left _ _ h'
    · cases h'
  · rcases plan_read _h with h' | ⟨h₁, h₂, _⟩
    · exact Prod.Lex.left _ _ h'
    · rw [h₁, h₂]
      apply Prod.Lex.right
      simp only [List.length_cons]
      omega

theorem fill_bytes {s s' : Source} {room : Nat} {got : List UInt8}
    (h : s.fill room = (s', .ok got)) : got ++ s'.bytes = s.bytes := by
  fun_induction fill s room generalizing s' got with
  | case1 => cases h; rfl
  | case2 s room _ s₁ fault hr hi ih =>
    have hb : s₁.bytes = s.bytes := by
      unfold read at hr
      split at hr <;> cases hr
      rfl
    rw [ih h, hb]
  | case3 => cases h
  | case4 s room _ s₁ hr =>
    cases h
    exact read_bytes hr
  | case5 => cases h
  | case6 s room _ s₁ b bs hr s₂ more hf ih =>
    cases h
    rw [List.append_assoc, ih hf, read_bytes hr]

/-- Reads one word; none if the stream has ended. -/
def nextWord (s : Source) : Source × Except TransportError (Option Int32) :=
  match s.fill 4 with
  | (s, .error fault) => (s, .error (.stream fault))
  | (s, .ok []) => (s, .ok none)
  | (s, .ok [b₀, b₁, b₂, b₃]) => (s, .ok (some (Word.ofBytes b₀ b₁ b₂ b₃)))
  | (s, .ok _) => (s, .error .cutOff)

theorem nextWord_bytes {s s' : Source} {w : Int32} (h : s.nextWord = (s', .ok (some w))) :
    Word.toBytes w ++ s'.bytes = s.bytes := by
  unfold nextWord at h
  split at h <;> cases h
  rename_i hf
  rw [Word.toBytes_ofBytes]
  exact fill_bytes hf

theorem length_nextWord_lt {s s' : Source} {w : Int32} (h : s.nextWord = (s', .ok (some w))) :
    s'.bytes.length < s.bytes.length := by
  rw [← nextWord_bytes h, List.length_append, Word.length_toBytes]
  omega

/-- The literals of a clause from its first word on, up to the word zero. -/
def readLiterals (word : Int32) (s : Source) : Source × Except TransportError (List Int32) :=
  if word = 0 then (s, .ok [])
  else
    match _h : s.nextWord with
    | (s', .error e) => (s', .error e)
    | (s', .ok none) => (s', .error .cutOff)
    | (s', .ok (some next)) =>
      match readLiterals next s' with
      | (s'', .error e) => (s'', .error e)
      | (s'', .ok rest) => (s'', .ok (word :: rest))
termination_by s.bytes.length
decreasing_by exact length_nextWord_lt _h

/-- Reads the next clause; none if the stream ends before it begins. -/
def nextClause (s : Source) : Source × Except TransportError (Option SharedClause) :=
  match s.nextWord with
  | (s, .error e) => (s, .error e)
  | (s, .ok none) => (s, .ok none)
  | (s, .ok (some word)) =>
    match readLiterals word s with
    | (s, .error e) => (s, .error e)
    | (s, .ok literals) =>
      match s.nextWord with
      | (s, .error e) => (s, .error e)
      | (s, .ok none) => (s, .error .cutOff)
      | (s, .ok (some glue)) => (s, .ok (some ⟨literals, glue⟩))

theorem length_readLiterals_le {word : Int32} {s s' : Source} {literals : List Int32}
    (h : readLiterals word s = (s', .ok literals)) : s'.bytes.length ≤ s.bytes.length := by
  fun_induction readLiterals word s generalizing s' literals with
  | case1 => cases h; exact Nat.le_refl _
  | case2 => cases h
  | case3 => cases h
  | case4 => cases h
  | case5 s word _ s₁ next hw s₂ rest hl ih =>
    cases h
    exact Nat.le_trans (ih hl) (Nat.le_of_lt (length_nextWord_lt hw))

theorem length_nextClause_lt {s s' : Source} {c : SharedClause}
    (h : s.nextClause = (s', .ok (some c))) : s'.bytes.length < s.bytes.length := by
  unfold nextClause at h
  split at h <;> try cases h
  rename_i s₁ word hw
  split at h <;> try cases h
  rename_i s₂ literals hl
  split at h <;> cases h
  rename_i hg
  exact Nat.lt_trans (length_nextWord_lt hg)
    (Nat.lt_of_le_of_lt (length_readLiterals_le hl) (length_nextWord_lt hw))

/-- The next result of the stream: a clause, an error, or nothing when the stream has ended. Reading
may go on after an error. -/
def next (s : Source) : Source × Option (Except TransportError SharedClause) :=
  match s.nextClause with
  | (s, .error e) => (s, some (.error e))
  | (s, .ok none) => (s, none)
  | (s, .ok (some c)) => (s, some (.ok c))

/-- The next results of the stream, `limit` at most, and whether its end was seen. -/
def results (s : Source) : Nat → List (Except TransportError SharedClause) × Bool
  | 0 => ([], false)
  | limit + 1 =>
    match s.next with
    | (_, none) => ([], true)
    | (s, some result) => ((result :: (s.results limit).1), (s.results limit).2)

/-- Adds the clauses up to the end of the stream, or up to the first error, to those read before. -/
def clausesFrom (s : Source) (before : Array SharedClause) :
    Array SharedClause × Option TransportError :=
  match _h : s.nextClause with
  | (_, .error e) => (before, some e)
  | (_, .ok none) => (before, none)
  | (s', .ok (some c)) => s'.clausesFrom (before.push c)
termination_by s.bytes.length
decreasing_by exact length_nextClause_lt _h

/-- The clauses up to the end of the stream, or up to the first error, and that error. -/
def clauses (s : Source) : List SharedClause × Option TransportError :=
  let (clauses, error) := s.clausesFrom #[]
  (clauses.toList, error)

end Source

end ClauseSharing
