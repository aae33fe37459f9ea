import ClauseSharing.Diagnostics.Journal
import ClauseSharing.Scalar.Double
import ClauseSharing.Scalar.Rational

/-!
The streams of a journal are cut off at most, and never mixed.

Writing a text piece by piece is writing it in one go (`TextSink.writePieces_eq`). A sink that holds
what fits of a text therefore holds what fits of a longer one after the rest has been written, and
answers whether that is all of it (`TextSink.Holds.writeAll`). Since a row is never empty, a sink
that has cut a row off takes nothing any more.

Each sample goes to the stream of its kind (`Journal.sink_write`), so this carries over to the
streams of a journal, row by row (`Journal.Keeps.write`): `Journal.streams_are_truncated_only`. What
fits is counted in characters. With doubles, all of them take one byte
(`JournalStream.singleBytes_fullText`).
-/

namespace ClauseSharing

/-! ## Characters and bytes -/

/-- Every character of the text takes one byte. -/
def SingleBytes (text : List Char) : Prop := ∀ c ∈ text, c.utf8Size = 1

instance (text : List Char) : Decidable (SingleBytes text) :=
  decidable_of_iff (text.all (·.utf8Size == 1) = true) (by simp [SingleBytes])

namespace SingleBytes

theorem append {text rest : List Char} (htext : SingleBytes text) (hrest : SingleBytes rest) :
    SingleBytes (text ++ rest) :=
  fun c hc => (List.mem_append.mp hc).elim (htext c) (hrest c)

theorem zeros (n : Nat) : SingleBytes (List.replicate n '0') := by
  intro c hc
  rw [List.eq_of_mem_replicate hc]
  rfl

theorem natural (n : Nat) : SingleBytes (toString n).toList := by
  intro c hc
  have hdigit : c.isDigit = true :=
    Nat.isDigit_of_mem_toDigits (b := 10) (n := n) (by decide) (by decide) (by simpa using hc)
  simp only [Char.isDigit, Bool.and_eq_true, decide_eq_true_eq] at hdigit
  exact Char.utf8Size_eq_one_iff.mpr (Nat.le_trans hdigit.2 (by decide))

theorem withPlaces (places units : Nat) :
    SingleBytes (Decimal.withPlaces places units).toList := by
  have hpadded := (zeros (places + 1 - (toString units).length)).append (natural units)
  unfold Decimal.withPlaces
  simp only [String.toList_append, String.toList_ofList]
  refine append (append ?_ (by decide)) ?_
  · exact fun c hc => hpadded c (List.mem_of_mem_take hc)
  · exact fun c hc => hpadded c (List.mem_of_mem_drop hc)

theorem positional (digits : Nat) (power : Int) :
    SingleBytes (Decimal.positional digits power).toList := by
  unfold Decimal.positional
  split
  · rw [String.toList_append, String.toList_ofList]
    exact (natural digits).append (zeros _)
  · exact withPlaces _ digits

theorem signed (negative : Bool) {text : String} (h : SingleBytes text.toList) :
    SingleBytes (Decimal.signed negative text).toList := by
  unfold Decimal.signed
  split
  · rw [String.toList_append]
    exact append (by decide) h
  · exact h

theorem double (x : Float) : SingleBytes (Scalar.text x).toList := by
  show SingleBytes (Decimal.shortest x).toList
  unfold Decimal.shortest
  split
  · decide
  · exact signed _ (by decide)
  · exact signed _ (by decide)
  · exact signed _ (positional _ _)

end SingleBytes

/-! ## One sink -/

namespace TextSink

variable {s : TextSink} {text : List Char}

theorem fitting_le (s : TextSink) (n : Nat) : s.fitting n ≤ n := by
  unfold fitting
  split
  · exact Nat.min_le_left ..
  · exact Nat.le_refl n

/-- If a first part fits, the second one has the room that is left. -/
theorem fitting_add {s : TextSink} {cs : List Char} (h : s.fitting cs.length = cs.length)
    (n : Nat) :
    s.fitting (cs.length + n) = cs.length + fitting { s with stored := s.stored ++ cs } n := by
  unfold fitting at h ⊢
  cases hc : s.capacity with
  | none => rfl
  | some c =>
    simp only [hc, List.length_append] at h ⊢
    omega

/-- If a first part does not fit, a second one changes nothing about that. -/
theorem fitting_add_of_lt {s : TextSink} {m : Nat} (h : s.fitting m < m) (n : Nat) :
    s.fitting (m + n) = s.fitting m := by
  unfold fitting at h ⊢
  cases hc : s.capacity with
  | none => simp [hc] at h
  | some c =>
    simp only [hc] at h ⊢
    omega

/-- A text that is written in two parts. The second one is not begun if the first one fails. -/
theorem writeAll_append (s : TextSink) (cs ds : List Char) :
    s.writeAll (cs ++ ds) =
      match s.writeAll cs with
      | (s, .error fault) => (s, .error fault)
      | (s, .ok ()) => s.writeAll ds := by
  rw [writeAll_eq s (cs ++ ds), writeAll_eq s cs, List.length_append]
  by_cases h : s.fitting cs.length = cs.length
  · simp only [h, if_true, List.take_length, writeAll_eq _ ds, fitting_add h,
      List.take_length_add_append, List.append_assoc, Nat.add_left_cancel_iff]
  · have hlt : s.fitting cs.length < cs.length := Nat.lt_of_le_of_ne (s.fitting_le _) h
    have hne : s.fitting cs.length ≠ cs.length + ds.length :=
      Nat.ne_of_lt (Nat.lt_add_right ds.length hlt)
    simp only [fitting_add_of_lt hlt, if_neg h, if_neg hne,
      List.take_append_of_le_length (Nat.le_of_lt hlt)]

/-- It does not matter how a text is cut into pieces. -/
theorem writePieces_eq (s : TextSink) (pieces : List String) :
    s.writePieces pieces = s.writeAll (pieces.flatMap String.toList) := by
  induction pieces generalizing s with
  | nil => rw [writePieces, List.flatMap_nil, writeAll, dif_pos rfl]
  | cons piece pieces ih =>
    rw [List.flatMap_cons, writeAll_append, writePieces]
    rcases s.writeAll piece.toList with ⟨s', _ | _⟩
    · rfl
    · exact ih s'

/-- As much of a text as a sink of the given capacity can store. -/
def upTo (capacity : Option Nat) (text : List Char) : List Char :=
  match capacity with
  | some n => text.take n
  | none => text

/-- Whether a sink of the given capacity can store all of a text. -/
def fits (capacity : Option Nat) (text : List Char) : Bool := capacity.all (text.length ≤ ·)

/-- A sink of the given capacity that has been given a text holds what fits of it. -/
structure Holds (s : TextSink) (capacity : Option Nat) (text : List Char) : Prop where
  capacity_eq : s.capacity = capacity
  stored_eq : s.stored = upTo capacity text

/-- A sink goes on with a longer text where it stands, and says whether it has all of it. Where it
has cut the text off, there is no room for more of it. -/
theorem Holds.writeAll {capacity : Option Nat} (h : s.Holds capacity text) {rest : List Char}
    (hne : rest ≠ []) : (s.writeAll rest).1.Holds capacity (text ++ rest) ∧
      (s.writeAll rest).2 = if fits capacity (text ++ rest) then .ok () else .error full := by
  have hpos : 0 < rest.length := List.length_pos_iff.mpr hne
  rw [writeAll_eq]
  cases capacity with
  | none =>
    have hfitting : s.fitting rest.length = rest.length := by rw [fitting, h.capacity_eq]
    refine ⟨⟨h.capacity_eq, ?_⟩, ?_⟩
    · rw [h.stored_eq, hfitting, List.take_length]
      rfl
    · rw [hfitting, if_pos rfl]
      rfl
  | some n =>
    have hroom : n - (text.take n).length = n - text.length := by
      rw [List.length_take]
      omega
    have hfitting : s.fitting rest.length = min rest.length (n - text.length) := by
      rw [fitting, h.capacity_eq, h.stored_eq]
      exact congrArg (min rest.length) hroom
    refine ⟨⟨h.capacity_eq, ?_⟩, ?_⟩
    · show s.stored ++ rest.take (s.fitting rest.length) = (text ++ rest).take n
      rw [h.stored_eq, hfitting, List.take_append]
      refine congrArg (text.take n ++ ·) (List.take_eq_take_iff.mpr ?_)
      omega
    · have hiff : s.fitting rest.length = rest.length ↔
          fits (some n) (text ++ rest) = true := by
        rw [hfitting, fits, Option.all_some, decide_eq_true_iff, List.length_append]
        omega
      simp only [hiff]

/-- An empty sink is given a first text. -/
theorem holds_ofCapacity (capacity : Option Nat) (fails : Bool) {title : String}
    (hne : title.toList ≠ []) :
    ((ofCapacity capacity fails).writePieces [title]).1.Holds capacity title.toList ∧
    ((ofCapacity capacity fails).writePieces [title]).2 =
      if fits capacity title.toList then .ok () else .error full := by
  have hempty : (ofCapacity capacity fails).Holds capacity [] := by
    refine ⟨rfl, ?_⟩
    cases capacity <;> simp [ofCapacity, upTo]
  rw [writePieces_eq, List.flatMap_singleton]
  exact hempty.writeAll hne

end TextSink

/-! ## Samples and streams -/

/-- The streams of a journal. -/
inductive JournalStream where
  | glue
  | conflict
deriving DecidableEq

/-- A sample of either kind. -/
inductive JournalSample (K : Type) where
  | glue (s : GlueSample K)
  | conflict (s : ConflictEstimate K)

variable {K : Type} [Scalar K]

namespace JournalSample

/-- The stream that the sample goes to. -/
def stream : JournalSample K → JournalStream
  | .glue _ => .glue
  | .conflict _ => .conflict

/-- The row of the sample, piece by piece. -/
def row : JournalSample K → List String
  | .glue s => s.row
  | .conflict s => s.row

def text (s : JournalSample K) : List Char := s.row.flatMap String.toList

theorem singleBytes_text (s : JournalSample Float) : SingleBytes s.text := by
  have hcomma : SingleBytes ", ".toList := by decide
  have hend : SingleBytes "\n".toList := by decide
  have hrow : ∀ piece ∈ s.row, SingleBytes piece.toList := by
    cases s with
    | glue s =>
      simp only [row, GlueSample.row, List.forall_mem_cons]
      exact ⟨.double _, hcomma, .natural _, hcomma, .double _, hcomma, .natural _, hend, nofun⟩
    | conflict s =>
      simp only [row, ConflictEstimate.row, List.forall_mem_cons]
      exact ⟨.double _, hcomma, .double _, hcomma, .natural _, hend, nofun⟩
  intro c hc
  obtain ⟨piece, hpiece, hc⟩ := List.mem_flatMap.mp hc
  exact hrow piece hpiece c hc

/-- A row ends a line at least. -/
theorem text_ne_nil (s : JournalSample K) : s.text ≠ [] := by
  have hmem : "\n" ∈ s.row := by cases s <;> simp [row, GlueSample.row, ConflictEstimate.row]
  exact List.ne_nil_of_mem (List.mem_flatMap.mpr ⟨_, hmem, List.mem_singleton_self _⟩)

end JournalSample

namespace JournalStream

/-- What belongs to the stream, out of what belongs to each of them. -/
def select {α : Type} (glue conflict : α) : JournalStream → α
  | .glue => glue
  | .conflict => conflict

def header : JournalStream → String := select Journal.glueHeader Journal.conflictHeader

theorem header_ne_nil (k : JournalStream) : k.header.toList ≠ [] := by
  cases k <;> decide +kernel

/-- The whole text of the stream: its header and the rows of its own samples, in order. -/
def fullText (k : JournalStream) (samples : List (JournalSample K)) : List Char :=
  k.header.toList ++ (samples.filter (·.stream = k)).flatMap JournalSample.text

variable {k : JournalStream} {s : JournalSample K}

theorem fullText_concat (samples : List (JournalSample K)) (s : JournalSample K) :
    s.stream.fullText (samples ++ [s]) = s.stream.fullText samples ++ s.text := by
  simp [fullText]

theorem fullText_concat_of_ne (h : k ≠ s.stream) (samples : List (JournalSample K)) :
    k.fullText (samples ++ [s]) = k.fullText samples := by
  simp [fullText, h.symm]

/-- With doubles, characters are bytes. -/
theorem singleBytes_fullText (k : JournalStream) (samples : List (JournalSample Float)) :
    SingleBytes (k.fullText samples) := by
  have hheader : SingleBytes k.header.toList := by cases k <;> decide +kernel
  refine hheader.append ?_
  intro c hc
  obtain ⟨s, -, hc⟩ := List.mem_flatMap.mp hc
  exact s.singleBytes_text c hc

end JournalStream

/-! ## Runs -/

namespace Journal

variable {r : Journal} {capacity : JournalStream → Option Nat}
  {before samples : List (JournalSample K)}

def sink (r : Journal) : JournalStream → TextSink := JournalStream.select r.glue r.conflict

/-- Records one sample. -/
def write (r : Journal) : JournalSample K → Journal × Except StreamFault Unit
  | .glue s => r.writeGlue s
  | .conflict s => r.writeConflict s

/-- Records samples one after the other, whatever becomes of each. -/
def writeEach (r : Journal) (samples : List (JournalSample K)) : Journal :=
  samples.foldl (fun r s => (r.write s).1) r

/-- A sample is written to the sink of its stream. -/
theorem sink_write (r : Journal) (s : JournalSample K) :
    (r.write s).1.sink s.stream = ((r.sink s.stream).writeAll s.text).1 ∧
    (r.write s).2 = ((r.sink s.stream).writeAll s.text).2 := by
  rw [JournalSample.text, ← TextSink.writePieces_eq]
  cases s <;> exact ⟨rfl, rfl⟩

theorem sink_write_of_ne {k : JournalStream} {s : JournalSample K} (h : k ≠ s.stream) :
    (r.write s).1.sink k = r.sink k := by
  cases s <;> cases k <;> first | rfl | exact absurd rfl h

/-- Each sink holds what fits of the whole text of its stream. -/
def Keeps (r : Journal) (capacity : JournalStream → Option Nat)
    (samples : List (JournalSample K)) : Prop :=
  ∀ k, (r.sink k).Holds (capacity k) (k.fullText samples)

theorem Keeps.write (h : r.Keeps capacity samples) (s : JournalSample K) :
    (r.write s).1.Keeps capacity (samples ++ [s]) ∧
    (r.write s).2 = if TextSink.fits (capacity s.stream) (s.stream.fullText (samples ++ [s]))
      then .ok () else .error TextSink.full := by
  obtain ⟨hsink, hresult⟩ := r.sink_write s
  obtain ⟨hholds, hanswer⟩ := (h s.stream).writeAll s.text_ne_nil
  rw [← JournalStream.fullText_concat] at hholds hanswer
  refine ⟨fun k => ?_, hresult.trans hanswer⟩
  by_cases hk : k = s.stream
  · subst hk
    rw [hsink]
    exact hholds
  · rw [sink_write_of_ne hk, JournalStream.fullText_concat_of_ne hk]
    exact h k

theorem Keeps.writeEach (h : r.Keeps capacity before) (samples : List (JournalSample K)) :
    (r.writeEach samples).Keeps capacity (before ++ samples) := by
  induction samples generalizing r before with
  | nil =>
    rw [List.append_nil]
    exact h
  | cons s samples ih =>
    have hrest := ih (h.write s).1
    rwa [List.append_assoc, List.singleton_append] at hrest

/-- A journal is started by writing the headers. -/
theorem keeps_of_create {glue conflict : Option Nat} {glueFails conflictFails : Bool}
    (h : create (.ofCapacity glue glueFails) (.ofCapacity conflict conflictFails) = (r, .ok ())) :
    r.Keeps (JournalStream.select glue conflict) ([] : List (JournalSample K)) := by
  obtain ⟨hglue, -⟩ :=
    TextSink.holds_ofCapacity glue glueFails (JournalStream.header_ne_nil .glue)
  obtain ⟨hconflict, -⟩ :=
    TextSink.holds_ofCapacity conflict conflictFails (JournalStream.header_ne_nil .conflict)
  unfold create at h
  split at h
  · cases h
  next hfirst =>
  rw [show JournalStream.glue.header = glueHeader from rfl, hfirst] at hglue
  obtain ⟨rfl, -⟩ := Prod.ext_iff.mp h
  intro k
  rw [JournalStream.fullText, List.filter_nil, List.flatMap_nil, List.append_nil]
  cases k with
  | glue => exact hglue
  | conflict => exact hconflict

/-- Nothing fails at the start if both headers fit. -/
theorem create_eq_ok {glue conflict : Option Nat}
    (hglue : TextSink.fits glue glueHeader.toList = true)
    (hconflict : TextSink.fits conflict conflictHeader.toList = true)
    (glueFails conflictFails : Bool) :
    (create (.ofCapacity glue glueFails) (.ofCapacity conflict conflictFails)).2 = .ok () := by
  obtain ⟨-, hfirst⟩ :=
    TextSink.holds_ofCapacity glue glueFails (JournalStream.header_ne_nil .glue)
  obtain ⟨-, hsecond⟩ :=
    TextSink.holds_ofCapacity conflict conflictFails (JournalStream.header_ne_nil .conflict)
  have hfirst' := hfirst.trans (if_pos hglue)
  unfold create
  split
  · next hfault =>
    have h := (congrArg Prod.snd hfault).symm.trans hfirst'
    cases h
  · exact hsecond.trans (if_pos hconflict)

/-- Start a journal on two empty sinks, without failure, and record samples of both kinds in any
order, going on after every failure. Then each stream holds what fits of its whole text, which is
its header and the rows of its own samples. A sample is answered with an error exactly if the whole
text up to its row does not fit, and it leaves the other stream alone in any case. The texts of
doubles take one byte for each character, so what fits is counted in bytes. -/
theorem streams_are_truncated_only {glue conflict : Option Nat} {glueFails conflictFails : Bool}
    (h : create (.ofCapacity glue glueFails) (.ofCapacity conflict conflictFails) = (r, .ok ()))
    (samples : List (JournalSample K)) :
    (∀ k, ((r.writeEach samples).sink k).stored =
      TextSink.upTo (JournalStream.select glue conflict k) (k.fullText samples)) ∧
    (∀ s, ((r.writeEach samples).write s).2 =
        (if TextSink.fits (JournalStream.select glue conflict s.stream)
          (s.stream.fullText (samples ++ [s])) then .ok () else .error TextSink.full) ∧
      ∀ k, k ≠ s.stream →
        ((r.writeEach samples).write s).1.sink k = (r.writeEach samples).sink k) ∧
    ∀ (k : JournalStream) (samples : List (JournalSample Float)),
      ∀ c ∈ k.fullText samples, c.utf8Size = 1 := by
  have hkeeps := (keeps_of_create (K := K) h).writeEach samples
  rw [List.nil_append] at hkeeps
  refine ⟨fun k => (hkeeps k).stored_eq, fun s => ?_, JournalStream.singleBytes_fullText⟩
  exact ⟨(hkeeps.write s).2, fun k => sink_write_of_ne⟩

/-- Learned clauses with a conflict between the first two of them. -/
def mixedSamples : List (JournalSample Rat) :=
  [.glue ⟨2, 3, 4⟩, .conflict ⟨1, 2, 2⟩, .glue ⟨1, 1, 2⟩, .glue ⟨5, 2, 6⟩]

/-- The row of the second learned clause is torn, and that of the third one does not follow it. -/
theorem streams_are_truncated_only_mixedSamples :
    let started := create (.ofCapacity (some 50) true) (.ofCapacity none false)
    let r := started.1.writeEach mixedSamples
    started.2 = .ok () ∧
    (r.sink .glue).stored = "fuzzy, expected, error, size\n2/1, 3, 1/1, 4\n1/1, 1".toList ∧
    (r.sink .conflict).stored = "fuzzy, sum, size\n1/1, 2/1, 2\n".toList ∧
    (r.write (.glue ⟨1, 1, 1⟩ : JournalSample Rat)).2 = .error TextSink.full ∧
    (r.write (.conflict ⟨1, 1, 1⟩ : JournalSample Rat)).2 = .ok () := by
  intro started r
  have hstarted : started.2 = .ok () :=
    create_eq_ok (by decide +kernel) (by decide +kernel) true false
  obtain ⟨hstored, hwrite, -⟩ := streams_are_truncated_only (Prod.ext rfl hstarted) mixedSamples
  refine ⟨hstarted, (hstored .glue).trans ?_, (hstored .conflict).trans ?_,
    (hwrite (.glue ⟨1, 1, 1⟩)).1.trans (if_neg ?_),
    (hwrite (.conflict ⟨1, 1, 1⟩)).1.trans (if_pos ?_)⟩
  all_goals decide +kernel

end Journal

end ClauseSharing
