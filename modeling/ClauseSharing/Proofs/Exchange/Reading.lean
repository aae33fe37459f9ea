import ClauseSharing.Exchange.Receiver

/-!
What a receiver reads off a steady source.

A source is steady if each call serves at least one byte or is only interrupted, so that its end is
the end of its bytes. How the bytes are cut into calls does not matter then: filling a room takes
exactly that many bytes (`Source.fill_of_steady`). Reading an item therefore depends on the bytes
alone: it takes a written item off them, meets their end, or finds that they break off
(`Source.reading_nextWord`, `Source.reading_nextClause`).
-/

namespace ClauseSharing

/-- Whether a call with this step serves a byte or can be repeated. -/
def StreamStep.isSteady : StreamStep → Bool
  | .atMost limit => 0 < limit
  | .fails fault => fault.interrupted

/-- Whether the literals can be literals: none of them is the word zero. -/
def SharedClause.Proper (c : SharedClause) : Prop := (0 : Int32) ∉ c.literals

instance (c : SharedClause) : Decidable c.Proper := inferInstanceAs (Decidable (_ ∉ _))

theorem Word.toBytes_inj {v w : Int32} (h : toBytes v = toBytes w) : v = w := by
  simp only [toBytes, List.cons.injEq, and_true] at h
  obtain ⟨h₀, h₁, h₂, h₃⟩ := h
  rw [← ofBytes_toBytes v, h₀, h₁, h₂, h₃, ofBytes_toBytes]

namespace Source

/-- The stream ends after its last byte and not before. -/
def Steady (s : Source) : Prop := ∀ step ∈ s.plan, step.isSteady = true

variable {s s' : Source}

/-! ## Calls -/

theorem Steady.read (hs : s.Steady) {room : Nat} {r : Except StreamFault (List UInt8)}
    (h : s.read room = (s', r)) : s'.Steady := by
  unfold Source.read at h
  split at h <;> cases h
  · exact nofun
  · next hplan => exact fun step hstep => hs step (hplan ▸ List.mem_cons_of_mem _ hstep)
  · next hplan => exact fun step hstep => hs step (hplan ▸ List.mem_cons_of_mem _ hstep)

/-- A failing call of a steady source leaves the bytes alone and can be repeated. -/
theorem Steady.read_error (hs : s.Steady) {room : Nat} {fault : StreamFault}
    (h : s.read room = (s', .error fault)) : fault.interrupted = true ∧ s'.bytes = s.bytes := by
  unfold Source.read at h
  split at h <;> cases h
  next hplan => exact ⟨hs (.fails fault) (hplan ▸ List.mem_cons_self), rfl⟩

/-- A steady source serves nothing only if nothing is left. -/
theorem Steady.read_nil (hs : s.Steady) {room : Nat} (hroom : room ≠ 0)
    (h : s.read room = (s', .ok [])) : s.bytes = [] := by
  unfold Source.read at h
  split at h
  · have htake := congrArg (·.2) h
    simpa [hroom] using htake
  · next limit plan hplan =>
    have hlimit : 0 < limit :=
      of_decide_eq_true (hs (.atMost limit) (hplan ▸ List.mem_cons_self))
    have htake := congrArg (·.2) h
    simpa [hroom, Nat.pos_iff_ne_zero.mp hlimit, Nat.min_eq_zero_iff] using htake
  · cases h

/-- Filling a room takes as many bytes as fit, however they are cut into calls. -/
theorem fill_of_steady (hs : s.Steady) (room : Nat) :
    ∃ s', s.fill room = (s', .ok (s.bytes.take room)) ∧ s'.Steady ∧
      s'.bytes = s.bytes.drop room := by
  fun_induction fill s room with
  | case1 s => exact ⟨s, rfl, hs, rfl⟩
  | case2 s room _ s₁ fault hread _ ih =>
    obtain ⟨s₂, hfill, hsteady, hbytes⟩ := ih (hs.read hread)
    rw [(hs.read_error hread).2] at hfill hbytes
    exact ⟨s₂, hfill, hsteady, hbytes⟩
  | case3 s room _ s₁ fault hread hfault => exact absurd (hs.read_error hread).1 hfault
  | case4 s room hroom s₁ hread =>
    have hnil := hs.read_nil hroom hread
    have hleft : s₁.bytes = s.bytes := read_bytes hread
    refine ⟨s₁, ?_, hs.read hread, ?_⟩
    · rw [hnil, List.take_nil]
    · rw [hleft, hnil, List.drop_nil]
  | case5 s room _ s₁ b bs hread s₂ fault hfill ih =>
    obtain ⟨_, hok, -⟩ := ih (hs.read hread)
    rw [hfill] at hok
    cases hok
  | case6 s room _ s₁ b bs hread s₂ more hfill ih =>
    obtain ⟨_, hok, hsteady, hbytes⟩ := ih (hs.read hread)
    rw [hfill] at hok
    cases hok
    have hfits : (b :: bs).length ≤ room := length_read_le hread
    refine ⟨s₂, ?_, hsteady, ?_⟩
    · rw [← read_bytes hread, List.take_append, List.take_of_length_le hfits]
    · rw [hbytes, ← read_bytes hread, List.drop_append, List.drop_of_length_le hfits,
        List.nil_append]

/-! ## Items -/

/-- What reading an item off a steady source comes to, where `encode` writes the valid items. -/
inductive Reading {α : Type} (valid : α → Prop) (encode : α → List UInt8) (s : Source) :
    Source × Except TransportError (Option α) → Prop
  | item {a : α} {s' : Source} (is_valid : valid a) (steady : s'.Steady)
      (bytes_eq : s.bytes = encode a ++ s'.bytes) : Reading valid encode s (s', .ok (some a))
  | ended {s' : Source} (steady : s'.Steady) (bytes_eq : s.bytes = []) (left_eq : s'.bytes = []) :
      Reading valid encode s (s', .ok none)
  /-- The bytes break off: they are not at their end and do not begin with an item. -/
  | torn {s' : Source} (steady : s'.Steady) (ne_nil : s.bytes ≠ [])
      (itemless : ∀ a rest, valid a → s.bytes ≠ encode a ++ rest) (left_eq : s'.bytes = []) :
      Reading valid encode s (s', .error .cutOff)

theorem reading_nextWord (hs : s.Steady) :
    Reading (fun _ => True) Word.toBytes s s.nextWord := by
  obtain ⟨s', hfill, hsteady, hbytes⟩ := fill_of_steady hs 4
  unfold nextWord
  rw [hfill]
  rcases h : s.bytes with _ | ⟨b₀, _ | ⟨b₁, _ | ⟨b₂, _ | ⟨b₃, rest⟩⟩⟩⟩
  all_goals rw [h] at hbytes
  · exact .ended hsteady h hbytes
  · exact .torn hsteady (by simp [h]) (by simp [h, Word.toBytes]) hbytes
  · exact .torn hsteady (by simp [h]) (by simp [h, Word.toBytes]) hbytes
  · exact .torn hsteady (by simp [h]) (by simp [h, Word.toBytes]) hbytes
  · refine .item trivial hsteady ?_
    rw [h, hbytes, Word.toBytes_ofBytes]
    rfl

/-- A written word is read back. -/
theorem nextWord_toBytes (hs : s.Steady) {w : Int32} {rest : List UInt8}
    (h : s.bytes = Word.toBytes w ++ rest) :
    ∃ s', s.nextWord = (s', .ok (some w)) ∧ s'.Steady ∧ s'.bytes = rest := by
  have hreading := reading_nextWord hs
  generalize s.nextWord = r at hreading ⊢
  cases hreading with
  | @item v s' _ hsteady hbytes =>
    rw [h] at hbytes
    obtain ⟨hword, hrest⟩ := List.append_inj hbytes rfl
    obtain rfl := Word.toBytes_inj hword
    exact ⟨s', rfl, hsteady, hrest.symm⟩
  | ended _ hnil _ =>
    rw [h] at hnil
    cases hnil
  | torn _ _ hitemless _ => exact absurd h (hitemless w rest trivial)

/-! ## Clauses -/

/-- Literals that are followed by the word zero are read back. -/
theorem readLiterals_toBytes {literals : List Int32} (hproper : (0 : Int32) ∉ literals)
    {word : Int32} {words : List Int32} (hwords : literals ++ [0] = word :: words) (hs : s.Steady)
    {rest : List UInt8} (h : s.bytes = words.flatMap Word.toBytes ++ rest) :
    ∃ s', readLiterals word s = (s', .ok literals) ∧ s'.Steady ∧ s'.bytes = rest := by
  induction literals generalizing word words s with
  | nil =>
    cases hwords
    rw [readLiterals, if_pos rfl]
    exact ⟨s, rfl, hs, h⟩
  | cons literal literals ih =>
    rw [List.cons_append] at hwords
    cases hwords
    obtain ⟨hliteral, hliterals⟩ := List.ne_and_not_mem_of_not_mem_cons hproper
    -- What follows is a literal again or the final zero, a word in either case.
    obtain ⟨next, following, hnext⟩ := List.exists_cons_of_ne_nil
      (List.append_ne_nil_of_right_ne_nil literals (List.cons_ne_nil (0 : Int32) []))
    rw [hnext, List.flatMap_cons, List.append_assoc] at h
    obtain ⟨s₁, hread, hsteady, hbytes⟩ := nextWord_toBytes hs h
    obtain ⟨s₂, hrest, hsteady₂, hbytes₂⟩ := ih hliterals hnext hsteady hbytes
    refine ⟨s₂, ?_, hsteady₂, hbytes₂⟩
    rw [readLiterals, if_neg (Ne.symm hliteral)]
    split <;> rename_i h <;> rw [hread] at h <;> cases h
    rw [hrest]

/-- What the literals of a clause are read from, or that the stream ends before they do. -/
theorem readLiterals_cases (hs : s.Steady) (word : Int32) :
    (∃ s' literals, readLiterals word s = (s', .ok literals) ∧ s'.Steady ∧
      (0 : Int32) ∉ literals ∧
      Word.toBytes word ++ s.bytes = (literals ++ [0]).flatMap Word.toBytes ++ s'.bytes) ∨
    ∃ s', readLiterals word s = (s', .error .cutOff) ∧ s'.Steady ∧ s'.bytes = [] := by
  fun_induction readLiterals word s with
  | case1 s => exact .inl ⟨s, [], rfl, hs, List.not_mem_nil, rfl⟩
  | case2 word s _ s₁ e hread =>
    have hreading := reading_nextWord hs
    rw [hread] at hreading
    cases hreading with
    | torn hsteady _ _ hleft => exact .inr ⟨s₁, rfl, hsteady, hleft⟩
  | case3 word s _ s₁ hread =>
    have hreading := reading_nextWord hs
    rw [hread] at hreading
    cases hreading with
    | ended hsteady _ hleft => exact .inr ⟨s₁, rfl, hsteady, hleft⟩
  | case4 word s hword s₁ next hread s₂ e hrest ih =>
    have hreading := reading_nextWord hs
    rw [hread] at hreading
    cases hreading with
    | item _ hsteady _ =>
      obtain ⟨_, _, hok, -⟩ | ⟨s₃, herror, hsteady₃, hleft⟩ := ih hsteady
      · rw [hrest] at hok
        cases hok
      · rw [hrest] at herror
        cases herror
        exact .inr ⟨s₂, rfl, hsteady₃, hleft⟩
  | case5 word s hword s₁ next hread s₂ literals hrest ih =>
    have hreading := reading_nextWord hs
    rw [hread] at hreading
    cases hreading with
    | item _ hsteady hbytes =>
      obtain ⟨_, _, hok, hsteady₂, hproper, hbytes₂⟩ | ⟨_, herror, -⟩ := ih hsteady
      · rw [hrest] at hok
        cases hok
        refine .inl ⟨s₂, word :: literals, rfl, hsteady₂, ?_, ?_⟩
        · exact List.not_mem_cons_of_ne_of_not_mem (Ne.symm hword) hproper
        · rw [hbytes, hbytes₂, List.cons_append, List.flatMap_cons, List.append_assoc]
      · rw [hrest] at herror
        cases herror

theorem encode_eq (c : SharedClause) :
    c.encode = (c.literals ++ [0]).flatMap Word.toBytes ++ Word.toBytes c.glue := by
  simp [SharedClause.encode, SharedClause.words]

/-- A written clause is read back. -/
theorem nextClause_encode (hs : s.Steady) {c : SharedClause} (hc : c.Proper) {rest : List UInt8}
    (h : s.bytes = c.encode ++ rest) :
    ∃ s', s.nextClause = (s', .ok (some c)) ∧ s'.Steady ∧ s'.bytes = rest := by
  obtain ⟨word, words, hwords⟩ := List.exists_cons_of_ne_nil
    (List.append_ne_nil_of_right_ne_nil c.literals (List.cons_ne_nil (0 : Int32) []))
  rw [encode_eq, hwords, List.flatMap_cons, List.append_assoc, List.append_assoc] at h
  obtain ⟨s₁, hword, hsteady₁, hbytes₁⟩ := nextWord_toBytes hs h
  obtain ⟨s₂, hliterals, hsteady₂, hbytes₂⟩ := readLiterals_toBytes hc hwords hsteady₁ hbytes₁
  obtain ⟨s₃, hglue, hsteady₃, hbytes₃⟩ := nextWord_toBytes hsteady₂ hbytes₂
  refine ⟨s₃, ?_, hsteady₃, hbytes₃⟩
  simp only [nextClause, hword, hliterals, hglue]

theorem reading_nextClause (hs : s.Steady) :
    Reading SharedClause.Proper SharedClause.encode s s.nextClause := by
  -- A clause at the front would have been read, so no error leaves one there.
  have hitemless {s' : Source} {e : TransportError} (h : s.nextClause = (s', .error e))
      (c : SharedClause) (rest : List UInt8) (hc : c.Proper) : s.bytes ≠ c.encode ++ rest := by
    intro hbytes
    obtain ⟨_, hok, -⟩ := nextClause_encode hs hc hbytes
    rw [h] at hok
    cases hok
  have hreading := reading_nextWord hs
  unfold nextClause at hitemless ⊢
  generalize s.nextWord = r at hreading hitemless ⊢
  cases hreading with
  | ended hsteady hnil hleft => exact .ended hsteady hnil hleft
  | torn hsteady hne _ hleft => exact .torn hsteady hne (hitemless rfl) hleft
  | @item word s₁ _ hsteady hbytes =>
    have hne : s.bytes ≠ [] := by
      rw [hbytes]
      exact List.cons_ne_nil _ _
    dsimp only at hitemless ⊢
    obtain ⟨s₂, literals, hread, hsteady₂, hproper, hbytes₂⟩ | ⟨s₂, hread, hsteady₂, hleft⟩ :=
      readLiterals_cases hsteady word
    all_goals rw [hread] at hitemless ⊢
    · have hglue := reading_nextWord hsteady₂
      dsimp only at hitemless ⊢
      generalize s₂.nextWord = r at hglue hitemless ⊢
      cases hglue with
      | ended hsteady₃ _ hleft => exact .torn hsteady₃ hne (hitemless rfl) hleft
      | torn hsteady₃ _ _ hleft => exact .torn hsteady₃ hne (hitemless rfl) hleft
      | item _ hsteady₃ hbytes₃ =>
        refine .item hproper hsteady₃ ?_
        rw [hbytes, hbytes₂, hbytes₃, encode_eq, List.append_assoc]
    · exact .torn hsteady₂ hne (hitemless rfl) hleft

end Source

/-- Where the bytes of a clause end is seen from the bytes. -/
theorem SharedClause.encode_append_inj {c c' : SharedClause} (hc : c.Proper) (hc' : c'.Proper)
    {rest rest' : List UInt8} (h : c.encode ++ rest = c'.encode ++ rest') :
    c = c' ∧ rest = rest' := by
  -- Both are what a receiver reads off these bytes when they come at once.
  have hs : (⟨[], c.encode ++ rest⟩ : Source).Steady := nofun
  obtain ⟨s, hread, -, hbytes⟩ := Source.nextClause_encode hs hc rfl
  obtain ⟨s', hread', -, hbytes'⟩ := Source.nextClause_encode hs hc' h
  rw [hread] at hread'
  cases hread'
  exact ⟨rfl, hbytes.symm.trans hbytes'⟩

end ClauseSharing
